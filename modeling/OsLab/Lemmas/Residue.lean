import OsLab.Residue
import OsLab.Lemmas.QueueCalls

/-!
# The calls do not look behind a message

Filling the pages commutes with everything that the message calls do to them, and so with every step that copies out only what the
sender wrote (`msgStep_fill`), and with every run of such steps (`run_fill`).
-/

namespace OsLab

namespace ResidueAux

section Pages

variable {A : Type*} {b : UInt8} {h : A → Page A}

@[simp] theorem nodeAt_fill (a : A) : nodeAt (fillPages b h) a = (nodeAt h a).map (MsgNode.fill b) := by
  unfold nodeAt fillPages
  cases h a <;> rfl

@[simp] theorem queueAt_fill (a : A) : queueAt (fillPages b h) a = queueAt h a := by
  unfold queueAt fillPages
  cases h a <;> rfl

@[simp] theorem nextNode_fill : nextNode (fillPages b h) = nextNode h := by
  funext a
  simp only [nextNode, nodeAt_fill, Option.map_map]
  rfl

@[simp] theorem nextQueue_fill : nextQueue (fillPages b h) = nextQueue h := by
  funext a
  simp only [nextQueue, queueAt_fill]

/-- The message in a node is not behind it. -/
@[simp] theorem msg_fill (n : MsgNode A) : (n.fill b).msg = n.msg := by
  have htext : ∀ k ∈ List.range n.length.toNat, (n.fill b).data k = n.data k := by
    intro k hk
    rw [List.mem_range] at hk
    exact if_pos (by omega)
  show (⟨n.msgtyp, (List.range n.length.toNat).map (n.fill b).data⟩ : Msg) = ⟨n.msgtyp, (List.range n.length.toNat).map n.data⟩
  rw [List.map_congr_left htext]

/-- What a sender leaves behind its message is what memory held. -/
@[simp] theorem node_fill (c : SendCall) (inst : Nat) (junk : Nat → UInt8) :
    (c.node inst junk : MsgNode A).fill b = c.node inst fun _ => b := by
  unfold MsgNode.fill SendCall.node
  congr 1
  funext k
  by_cases hk : (k : Int) < c.msgsz <;> simp [hk]

@[simp] theorem fill_apply_free {a : A} : fillPages b h a = .free ↔ h a = .free := by
  unfold fillPages
  cases h a <;> simp [Page.fill]

@[simp] theorem fill_apply_other {a : A} : fillPages b h a = .other ↔ h a = .other := by
  unfold fillPages
  cases h a <;> simp [Page.fill]

@[simp] theorem seekNode_fill [Fintype A] (msgtyp : Int) (head : Option A) :
    seekNode (fillPages b h) msgtyp head = seekNode h msgtyp head := by
  unfold seekNode
  simp only [nextNode_fill, nodeAt_fill, Option.any_map]
  rfl

@[simp] theorem seekQueue_fill [Fintype A] (test : MsgQueue A → Bool) (head : Option A) :
    seekQueue (fillPages b h) test head = seekQueue h test head := by
  unfold seekQueue
  simp only [nextQueue_fill, queueAt_fill]

variable [DecidableEq A]

@[simp] theorem fill_update (a : A) (x : Page A) :
    fillPages b (Function.update h a x) = Function.update (fillPages b h) a (x.fill b) := by
  funext c
  by_cases hc : c = a
  · subst hc
    simp [fillPages]
  · simp [fillPages, hc]

@[simp] theorem setNext_fill (p : A) (m : Option A) : setNext (fillPages b h) p m = fillPages b (setNext h p m) := by
  unfold setNext
  cases hp : h p with
  | free | other => simp only [fillPages, hp, Page.fill]
  | node n =>
    simp only [fillPages, hp, Page.fill]
    exact (fill_update p (.node { n with next := m })).symm
  | queue q =>
    simp only [fillPages, hp, Page.fill]
    exact (fill_update p (.queue { q with next := m })).symm

/-- The links do not depend on the old contents. -/
theorem append_fill (a : A) (q : MsgQueue A) (node : A) :
    msgsndAppend (fillPages b h) a q node = (msgsndAppend h a q node).map (fillPages b) := by
  unfold msgsndAppend
  cases q.head with
  | none => simp [Except.map, Page.fill]
  | some _ =>
    cases q.tail with
    | none => rfl
    | some t =>
      simp only [nodeAt_fill]
      cases nodeAt h t <;> simp [Except.map, Page.fill]

theorem unlink_fill (a : A) (q : MsgQueue A) (prev : Option A) (c : A) (next : Option A) :
    msgrcvUnlink (fillPages b h) a q prev c next = fillPages b (msgrcvUnlink h a q prev c next) := by
  unfold msgrcvUnlink
  cases prev <;> simp [Page.fill]

/-- Nor does it matter for `kfree` what the nodes hold. -/
theorem freeNodes_fill (n : Nat) (head : Option A) :
    freeNodes (fillPages b h) n head = (freeNodes h n head).map (fillPages b) := by
  induction n generalizing h head with
  | zero => rfl
  | succ n ih =>
    cases head with
    | none => rfl
    | some a =>
      simp only [freeNodes, nodeAt_fill]
      cases nodeAt h a with
      | none => rfl
      | some m =>
        show freeNodes (Function.update (fillPages b h) a .free) n m.next = _
        rw [← ih]
        exact congrArg (freeNodes · n m.next) (fill_update a .free).symm

end Pages

section Steps

variable {P A : Type*} {b : UInt8} {s s' t : MsgSt P A} {act : MsgAct P A} {p : P}

theorem deref_fill (q : QueueRef A) : (s.fill b).deref q = s.deref q := by
  simp only [MsgSt.deref, MsgSt.fill, queueAt_fill]

theorem refTo_fill (a : A) : (s.fill b).refTo a = s.refTo a := by
  simp only [MsgSt.refTo, MsgSt.fill, queueAt_fill]

variable [DecidableEq P]

/-- A lookup finds the same queue. -/
theorem lookup_fill [Fintype A] {msqid : Int} {found found' : Option A → A → MsgSt P A}
    (hf : ∀ prev a, found' prev a = (found prev a).fill b) : (s.fill b).lookup p msqid found' = (s.lookup p msqid found).fill b := by
  unfold MsgSt.lookup
  simp only [MsgSt.fill, seekQueue_fill]
  cases seekQueue s.page (·.id == msqid) s.listHead with
  | found prev a => exact hf prev a
  | absent | dangling | endless => rfl

/-- The call goes on with the queue that it has found. -/
theorem setPc_refTo_fill (p : P) (a : A) (c : QueueRef A → MsgPc A) :
    (s.fill b).setPc p (c ((s.fill b).refTo a)) = (s.setPc p (c (s.refTo a))).fill b := by
  rw [refTo_fill]
  rfl

theorem getId_fill (p : P) (q : QueueRef A) : msggetId (s.fill b) p q = (msggetId s p q).fill b := by
  unfold msggetId
  rw [deref_fill]
  cases s.deref q <;> rfl

/-- The lookup of a send reads no node. -/
theorem snd_fill [Fintype A] (p : P) (msqid msgp msgsz msgflg : Arg) (sz : Nat) (typ : Int) (text : Nat → UInt8) :
    sysMsgsnd (s.fill b) p msqid msgp msgsz msgflg sz typ text = (sysMsgsnd s p msqid msgp msgsz msgflg sz typ text).fill b := by
  unfold sysMsgsnd
  split
  · split
    · rfl
    · exact lookup_fill fun _ a => setPc_refTo_fill p a (.sending · _)
  · rfl

theorem rcv_fill [Fintype A] (p : P) (msqid msgp msgsz msgtyp msgflg : Arg) (sz : Nat) :
    sysMsgrcv (s.fill b) p msqid msgp msgsz msgtyp msgflg sz = (sysMsgrcv s p msqid msgp msgsz msgtyp msgflg sz).fill b := by
  unfold sysMsgrcv
  split
  · exact lookup_fill fun _ a => setPc_refTo_fill p a (.receiving · _)
  · rfl

variable [DecidableEq A]

theorem get_fill [Fintype A] (p : P) (key msgflg : Arg) (page : Option A) :
    sysMsgget (s.fill b) p key msgflg page = (sysMsgget s p key msgflg page).map (MsgSt.fill b) := by
  unfold sysMsgget
  cases key with
  | none => cases msgflg <;> rfl
  | some key =>
    cases msgflg with
    | none => rfl
    | some msgflg =>
      have hseek : seekQueue (s.fill b).page (·.key == key) (s.fill b).listHead = seekQueue s.page (·.key == key) s.listHead :=
        seekQueue_fill _ _
      simp only [hseek]
      cases seekQueue s.page (·.key == key) s.listHead with
      | found prev a => exact congrArg some (setPc_refTo_fill p a .gotten)
      | dangling | endless => rfl
      | absent =>
        by_cases hflag : hasFlag msgflg IPC_CREAT
        · simp only [hflag, Bool.not_true, Bool.false_eq_true, if_false]
          cases page with
          | none => rfl
          | some a =>
            cases hpage : s.page a with
            | free =>
              have hfill : (s.fill b).page a = .free := fill_apply_free.mpr hpage
              simp only [hfill, hpage]
              simp only [MsgSt.ret, MsgSt.setPc, MsgSt.fill, fill_update, Page.fill, Option.map_some]
            | other | node n | queue q => simp [MsgSt.fill, fillPages, hpage, Page.fill]
        · simp only [hflag, Bool.not_false, if_true]
          rfl

/-- The new node gets the other contents. -/
theorem alloc_fill (p : P) (q : QueueRef A) (c : SendCall) (page : Option A) (junk : Nat → UInt8) :
    msgsndFill (s.fill b) p q c page (fun _ => b) = (msgsndFill s p q c page junk).map (MsgSt.fill b) := by
  unfold msgsndFill
  cases page with
  | none => rfl
  | some a =>
    cases hpage : s.page a with
    | free =>
      have hfill : (s.fill b).page a = .free := fill_apply_free.mpr hpage
      simp only [hfill, hpage]
      split
      · rfl
      · simp only [Option.map_some, MsgSt.setPc, MsgSt.fill, fill_update, Page.fill, node_fill]
    | other | node n | queue q => simp [MsgSt.fill, fillPages, hpage, Page.fill]

theorem link_fill (p : P) (q : QueueRef A) (node : A) (c : SendCall) :
    msgsndLink (s.fill b) p q node c = (msgsndLink s p q node c).fill b := by
  unfold msgsndLink
  rw [deref_fill]
  cases s.deref q with
  | none => rfl
  | some Q =>
    have happ : msgsndAppend (s.fill b).page q.page Q node = (msgsndAppend s.page q.page Q node).map (fillPages b) :=
      append_fill _ _ _
    simp only [happ]
    cases msgsndAppend s.page q.page Q node <;> rfl

/-- The search of a receive reads types and links only. -/
theorem scan_fill [Fintype A] (p : P) (q : QueueRef A) (c : RecvCall) :
    msgrcvScan (s.fill b) p q c = (msgrcvScan s p q c).fill b := by
  unfold msgrcvScan
  rw [deref_fill]
  cases s.deref q with
  | none => rfl
  | some Q =>
    have hseek : seekNode (s.fill b).page c.msgtyp Q.head = seekNode s.page c.msgtyp Q.head := seekNode_fill _ _
    simp only [hseek]
    cases seekNode s.page c.msgtyp Q.head with
    | found prev a =>
      have hnode : nodeAt (s.fill b).page a = (nodeAt s.page a).map (MsgNode.fill b) := nodeAt_fill a
      simp only [hnode]
      cases nodeAt s.page a with
      | none => rfl
      | some n =>
        have hun : msgrcvUnlink (s.fill b).page q.page Q prev a n.next = fillPages b (msgrcvUnlink s.page q.page Q prev a n.next) :=
          unlink_fill _ _ _ _ _
        simp only [Option.map_some, msg_fill]
        show MsgSt.setPc { s with page := msgrcvUnlink (s.fill b).page q.page Q prev a n.next, log := _ } p _ = _
        rw [hun]
        rfl
    | absent =>
      show (if _ then _ else if s.killed p = true then _ else _) = _
      split
      · rfl
      · split <;> rfl
    | dangling | endless => rfl

omit [DecidableEq A] in
/-- What is copied out of a node does not depend on what is behind the message, if it is no longer than the message. -/
theorem copied_fill (n : MsgNode A) (beyond : Nat → UInt8) {size : Int} (hle : size.toNat ≤ min n.length.toNat NODEROOM) :
    (n.fill b).copied (fun _ => b) size = n.copied beyond size := by
  refine List.map_congr_left fun k hk => ?_
  rw [List.mem_range] at hk
  have hroom : k < NODEROOM := by omega
  have hlen : (k : Int) < n.length := by omega
  simp only [hroom, if_true, MsgNode.fill, hlen]

omit [DecidableEq P] [DecidableEq A] in
/-- When a delivery is covered, written out. -/
theorem covered_deliver {beyond : Nat → UInt8} : Covered s (.deliver p beyond) ↔
    ∀ f c n, s.pc p = .delivering f c → nodeAt s.page f = some n →
      argptr c.sz c.msgp (int32 (LONGSIZE + copysz n.length c.msgsz)) = none ∨
        (copysz n.length c.msgsz).toNat ≤ min n.length.toNat NODEROOM := by
  simp only [Covered]
  constructor
  · intro h f c n hp hn
    simpa only [hp, hn] using h
  · intro h
    split
    · rename_i f c hp
      split
      · rename_i n hn
        exact h f c n hp hn
      · trivial
    · trivial

/-- A delivery that is covered copies nothing of the old contents. -/
theorem deliver_fill {f : A} {c : RecvCall} {beyond : Nat → UInt8} (hp : s.pc p = .delivering f c) (hc : Covered s (.deliver p beyond)) :
    msgrcvDeliver (s.fill b) p f c (fun _ => b) = (msgrcvDeliver s p f c beyond).fill b := by
  unfold msgrcvDeliver
  have hnode : nodeAt (s.fill b).page f = (nodeAt s.page f).map (MsgNode.fill b) := nodeAt_fill f
  simp only [hnode]
  cases hn : nodeAt s.page f with
  | none => rfl
  | some n =>
    have hlen : (n.fill b).length = n.length := rfl
    have htyp : (n.fill b).msgtyp = n.msgtyp := rfl
    simp only [Option.map_some, hlen, htyp]
    cases harg : argptr c.sz c.msgp (int32 (LONGSIZE + copysz n.length c.msgsz)) with
    | none => simp only [MsgSt.fill, MsgSt.ret, MsgSt.setPc, fill_update, Page.fill]
    | some addr =>
      have hle := (covered_deliver.mp hc f c n hp hn).resolve_left (by rw [harg]; intro he; cases he)
      simp only [MsgSt.fill, MsgSt.setPc, fill_update, Page.fill, copied_fill n beyond hle]

theorem ctl_fill [Fintype A] (p : P) (msqid cmd : Arg) : sysMsgctl (s.fill b) p msqid cmd = (sysMsgctl s p msqid cmd).fill b := by
  unfold sysMsgctl
  split
  · split
    · rfl
    · refine lookup_fill fun prev a => ?_
      have hnext : nextQueue (s.fill b).page a = nextQueue s.page a := congrFun nextQueue_fill a
      rw [hnext, refTo_fill]
      cases prev with
      | none => rfl
      | some c =>
        show MsgSt.setPc { s with page := setNext (fillPages b s.page) c _ } p _ = _
        rw [setNext_fill]
        rfl
  · rfl

theorem drain_fill [Fintype A] (p : P) (q : QueueRef A) : msgctlDrain (s.fill b) p q = (msgctlDrain s p q).fill b := by
  unfold msgctlDrain
  rw [deref_fill]
  cases s.deref q with
  | none => rfl
  | some Q =>
    have hfree : freeNodes (s.fill b).page (Fintype.card A + 1) Q.head =
        (freeNodes s.page (Fintype.card A + 1) Q.head).map (fillPages b) := freeNodes_fill _ _
    simp only [hfree]
    cases freeNodes s.page (Fintype.card A + 1) Q.head with
    | error e => rfl
    | ok h => simp only [Except.map, MsgSt.fill, MsgSt.wakeup, MsgSt.setPc, fill_update, Page.fill]

theorem free_fill (p : P) (q : QueueRef A) : msgctlFree (s.fill b) p q = (msgctlFree s p q).fill b := by
  unfold msgctlFree
  rw [deref_fill]
  cases s.deref q with
  | none => rfl
  | some Q => simp only [MsgSt.fill, MsgSt.ret, MsgSt.setPc, fill_update, Page.fill]

variable [Fintype A]

/-- A step that copies out only what the sender wrote does not look at what memory held. -/
theorem msgMove_fill (hc : Covered s act) : msgMove (s.fill b) (act.fill b) = (msgMove s act).map (MsgSt.fill b) := by
  have hpc : ∀ p, (s.fill b).pc p = s.pc p := fun _ => rfl
  cases act with
  | get p key msgflg page =>
    simp only [msgMove, MsgAct.fill, hpc]
    cases s.pc p <;> first | rfl | exact get_fill p key msgflg page
  | getId p =>
    simp only [msgMove, MsgAct.fill, hpc]
    cases s.pc p <;> first | rfl | exact congrArg some (getId_fill p _)
  | snd p msqid msgp msgsz msgflg sz typ text =>
    simp only [msgMove, MsgAct.fill, hpc]
    cases s.pc p <;> first | rfl | exact congrArg some (snd_fill p msqid msgp msgsz msgflg sz typ text)
  | sndAlloc p page junk =>
    simp only [msgMove, MsgAct.fill, hpc]
    cases s.pc p <;> first | rfl | exact alloc_fill p _ _ page junk
  | sndAppend p =>
    simp only [msgMove, MsgAct.fill, hpc]
    cases s.pc p <;> first | rfl | exact congrArg some (link_fill p _ _ _)
  | rcv p msqid msgp msgsz msgtyp msgflg sz =>
    simp only [msgMove, MsgAct.fill, hpc]
    cases s.pc p <;> first | rfl | exact congrArg some (rcv_fill p msqid msgp msgsz msgtyp msgflg sz)
  | rcvScan p =>
    simp only [msgMove, MsgAct.fill, hpc]
    cases s.pc p <;> first | rfl | exact congrArg some (scan_fill p _ _)
  | deliver p beyond =>
    simp only [msgMove, MsgAct.fill, hpc]
    cases hp : s.pc p <;> first | rfl | exact congrArg some (deliver_fill hp hc)
  | ctl p msqid cmd =>
    simp only [msgMove, MsgAct.fill, hpc]
    cases s.pc p <;> first | rfl | exact congrArg some (ctl_fill p msqid cmd)
  | ctlDrain p =>
    simp only [msgMove, MsgAct.fill, hpc]
    cases s.pc p <;> first | rfl | exact congrArg some (drain_fill p _)
  | ctlFree p =>
    simp only [msgMove, MsgAct.fill, hpc]
    cases s.pc p <;> first | rfl | exact congrArg some (free_fill p _)
  | kill p =>
    simp only [msgMove, MsgAct.fill, hpc]
    cases s.pc p <;> rfl
  | take a =>
    simp only [msgMove, MsgAct.fill]
    cases ha : s.page a with
    | free =>
      have hfill : (s.fill b).page a = .free := fill_apply_free.mpr ha
      simp only [hfill]
      simp only [MsgSt.fill, fill_update, Page.fill, Option.map_some]
    | other | node n | queue q => simp [MsgSt.fill, fillPages, ha, Page.fill]
  | give a =>
    simp only [msgMove, MsgAct.fill]
    cases ha : s.page a with
    | other =>
      have hfill : (s.fill b).page a = .other := fill_apply_other.mpr ha
      simp only [hfill]
      simp only [MsgSt.fill, fill_update, Page.fill, Option.map_some]
    | free | node n | queue q => simp [MsgSt.fill, fillPages, ha, Page.fill]

/-- A step that is covered is the same on other old contents. -/
theorem msgStep_fill (hc : Covered s act) : msgStep (s.fill b) (act.fill b) = (msgStep s act).map (MsgSt.fill b) := by
  unfold msgStep
  rw [show (s.fill b).fault = s.fault from rfl]
  cases s.fault with
  | none => exact msgMove_fill hc
  | some _ => rfl

omit [DecidableEq P] [DecidableEq A] [Fintype A] in
/-- What is covered does not depend on them. -/
theorem covered_fill : Covered (s.fill b) (act.fill b) ↔ Covered s act := by
  cases act with
  | deliver p beyond =>
    simp only [MsgAct.fill, covered_deliver]
    constructor
    · intro h f c n hp hn
      exact h f c (n.fill b) hp (by rw [MsgSt.fill, nodeAt_fill, hn]; rfl)
    · intro h f c m hp hm
      rw [MsgSt.fill, nodeAt_fill, Option.map_eq_some_iff] at hm
      obtain ⟨n, hn, rfl⟩ := hm
      exact h f c n hp hn
  | _ => exact Iff.rfl

/-- What memory held has no part in whether a run copies out only what the senders wrote. -/
theorem along_fill {acts : List (MsgAct P A)} :
    msgSys.along Covered (s.fill b) (acts.map (MsgAct.fill b)) ↔ msgSys.along Covered s acts := by
  induction acts generalizing s with
  | nil => exact Iff.rfl
  | cons act acts ih =>
    have hrest : Covered s act → ((∀ t, msgStep (s.fill b) (act.fill b) = some t →
        msgSys.along Covered t (acts.map (MsgAct.fill b))) ↔ ∀ t, msgStep s act = some t → msgSys.along Covered t acts) := by
      intro hc
      rw [msgStep_fill hc]
      constructor
      · intro h t ht
        exact ih.mp (h (t.fill b) (by rw [ht]; rfl))
      · intro h t ht
        obtain ⟨u, hu, rfl⟩ := Option.map_eq_some_iff.mp ht
        exact ih.mpr (h u hu)
    constructor
    · rintro ⟨hc, h⟩
      exact ⟨covered_fill.mp hc, (hrest (covered_fill.mp hc)).mp h⟩
    · rintro ⟨hc, h⟩
      exact ⟨covered_fill.mpr hc, (hrest hc).mpr h⟩

/-- A run that copies out only what the senders wrote does not depend on what memory held. -/
theorem run_fill {acts : List (MsgAct P A)} (hc : msgSys.along Covered s acts) :
    msgSys.run (s.fill b) (acts.map (MsgAct.fill b)) = (msgSys.run s acts).map (MsgSt.fill b) := by
  induction acts generalizing s with
  | nil => rfl
  | cons act acts ih =>
    show (msgStep (s.fill b) (act.fill b)).bind _ = ((msgStep s act).bind _).map _
    rw [msgStep_fill hc.1]
    cases hst : msgStep s act with
    | none => rfl
    | some t => exact ih (hc.2 t hst)

end Steps

end ResidueAux

end OsLab
