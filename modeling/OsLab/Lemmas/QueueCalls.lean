import OsLab.Lemmas.MailView

/-!
# Sizes and deliveries of the message calls

When every message sent is of 0 to 4000 bytes and every receiver has a buffer for what it asks for (`QueueOk`), the copy out of
a node is the message, cut to what the receiver asked for, and it never fails: for every process, what it has unlinked is what
has been copied out to it and then what it has in its hands (`CallInv.delivered`).
-/

namespace OsLab

open Function (update update_self update_of_ne)

variable {P A : Type*} {act : MsgAct P A} {c : RecvCall} {n : MsgNode A} {p : P}

/-- A receiver has asked for no less than nothing, and has a buffer for the type and for as much as it has asked for. -/
def RecvCall.Valid (c : RecvCall) : Prop :=
  0 ≤ c.msgsz ∧ c.sz < 2 ^ 32 ∧ ∃ i, c.msgp = some i ∧ uintOf i + LONGSIZE + c.msgsz ≤ c.sz

/-- What the queues are used for as they are meant to be: a queue is freed only when no other process has a pointer to it,
messages are of 0 to 4000 bytes, and receivers have a buffer. -/
structure QueueOk (s : MsgSt P A) (act : MsgAct P A) : Prop where
  alone : ∀ p q, act = .ctlFree p → s.pc p = .freeing q → ∀ p', p' ≠ p → ∀ q', (s.pc p').ref = some q' → q'.page ≠ q.page
  sizes : ∀ d, act.sendCall = some d → 0 ≤ d.msgsz ∧ d.msgsz ≤ 4000
  buffers : ∀ d, act.recvCall = some d → d.Valid

theorem QueueOk.lifetimeOk {s : MsgSt P A} (hok : QueueOk s act) : LifetimeOk s act where
  alone := hok.alone
  fits d hd := by
    have := (hok.sizes d hd).2
    simp only [NODEROOM, PGSIZE]
    omega

/-- For sizes that are not negative `copysz` is the smaller one. -/
theorem copysz_eq {length msgsz : Int} (hl : 0 ≤ length) (hl' : length ≤ 4000) (hm : 0 ≤ msgsz) (hm' : msgsz < 2 ^ 32) :
    copysz length msgsz = min length msgsz := by
  have h₁ : uintOf length = length.toNat := by
    unfold uintOf
    rw [Int.emod_eq_of_lt hl (by omega)]
  have h₂ : uintOf msgsz = msgsz.toNat := by
    unfold uintOf
    rw [Int.emod_eq_of_lt hm hm']
  unfold copysz
  rw [h₁, h₂]
  split <;> omega

/-- A valid buffer holds the type and what is copied. -/
theorem RecvCall.Valid.argptr (hc : c.Valid) {size : Int} (h0 : 0 ≤ size) (h1 : size ≤ 4000) (h2 : size ≤ c.msgsz) :
    ∃ addr, argptr c.sz c.msgp (int32 (LONGSIZE + size)) = some addr := by
  obtain ⟨-, hsz, i, hi, hfit⟩ := hc
  have hint : int32 (LONGSIZE + size) = LONGSIZE + size := by
    apply int32_of_lt <;> simp only [LONGSIZE] <;> omega
  have huint : uintOf (LONGSIZE + size) = LONGSIZE + size.toNat := by
    unfold uintOf
    rw [Int.emod_eq_of_lt (by omega) (by simp only [LONGSIZE]; omega)]
    omega
  have hsum : u32 (uintOf i + (LONGSIZE + size.toNat)) = uintOf i + (LONGSIZE + size.toNat) := u32_of_lt (by omega)
  refine ⟨uintOf i, ?_⟩
  rw [hi, OsLab.argptr, hint, huint, hsum, if_neg]
  simp only [LONGSIZE] at hfit ⊢
  omega

/-- What is copied out of a node is the payload, cut to the size asked for. -/
theorem copied_eq {msgsz : Int} (beyond : Nat → UInt8) (hl : n.length ≤ 4000) :
    n.copied beyond (min n.length msgsz) = n.msg.text.take msgsz.toNat := by
  simp only [MsgNode.copied, MsgNode.msg, ← List.map_take, List.take_range]
  have hmin : (min n.length msgsz).toNat = min msgsz.toNat n.length.toNat := by omega
  rw [hmin]
  refine List.map_congr_left fun k hk => ?_
  have hlt : k < NODEROOM := by
    have := List.mem_range.mp hk
    simp only [NODEROOM, PGSIZE]
    omega
  rw [if_pos hlt]

theorem MsgPc.Woken.calls {c c' : MsgPc A} (hw : c.Woken c') : c'.sendCall = c.sendCall ∧ c'.recvCall = c.recvCall := by
  rcases hw with rfl | ⟨q, d, rfl, rfl⟩ <;> exact ⟨rfl, rfl⟩

theorem inHand_of_hand_none {s : MsgSt P A} (hp : (s.pc p).hand = none) : inHand s p = [] := by
  unfold inHand
  split
  · rename_i f c hpc
    rw [hpc] at hp
    cases hp
  · rfl

/-- A process that is where it was, or woken, has the same in its hands if the node there is the same. -/
theorem inHand_congr {s s' : MsgSt P A} (hw : (s.pc p).Woken (s'.pc p))
    (hn : ∀ {f}, (s.pc p).hand = some f → (nodeAt s'.page f).map MsgNode.msg = (nodeAt s.page f).map MsgNode.msg) :
    inHand s' p = inHand s p := by
  rcases hw with heq | ⟨q, d, h, h'⟩
  · unfold inHand
    rw [heq]
    split
    · rename_i f c hpc
      have := hn (f := f) (by rw [hpc]; rfl)
      rw [← Function.comp_def (fun m => (c, m)) MsgNode.msg, ← Option.map_map, this, Option.map_map]
    · rfl
  · rw [inHand_of_hand_none (by rw [h']; rfl), inHand_of_hand_none (by rw [h]; rfl)]

variable [DecidableEq P]

theorem takenBy_append (p : P) (log l : List (MsgEvent P)) : takenBy p (log ++ l) = takenBy p log ++ takenBy p l :=
  List.filterMap_append

theorem receivedBy_append (p : P) (log l : List (MsgEvent P)) :
    receivedBy p (log ++ l) = receivedBy p log ++ receivedBy p l :=
  List.filterMap_append

/-- The sizes of the calls and of the nodes, and what has been delivered. -/
structure CallInv (s : MsgSt P A) : Prop where
  sends : ∀ {p d}, (s.pc p).sendCall = some d → 0 ≤ d.msgsz ∧ d.msgsz ≤ 4000
  recvs : ∀ {p d}, (s.pc p).recvCall = some d → d.Valid
  nodes : ∀ {f n}, nodeAt s.page f = some n → 0 ≤ n.length ∧ n.length ≤ 4000
  delivered : ∀ p, (takenBy p s.log).map (fun x => delivery x.1 x.2) =
    receivedBy p s.log ++ (inHand s p).map fun x => delivery x.1 x.2

theorem CallInv.boot {s : MsgSt P A} (hb : s.Boot) : CallInv s := by
  have hn : ∀ a, nodeAt s.page a = none := fun a => by rcases hb.page a with h | h <;> simp [nodeAt, h]
  constructor <;> simp [hb.pc, hn, hb.log, MsgPc.sendCall, MsgPc.recvCall, takenBy, receivedBy, inHand]

section Step

variable {s s' : MsgSt P A} {ql ql' : List A} {nl nl' : A → List A}

/-- A step of one process that neither takes a message nor delivers one, and that leaves the nodes in hand as they are. -/
theorem CallInv.moved (hc : CallInv s) (p : P) (others : ∀ p', p' ≠ p → (s.pc p').Woken (s'.pc p'))
    (own : (s'.pc p).sendCall = none ∧ (s'.pc p).recvCall = none ∧ inHand s p = [])
    (hand : ∀ {p' f}, p' ≠ p → (s.pc p').hand = some f →
      (nodeAt s'.page f).map MsgNode.msg = (nodeAt s.page f).map MsgNode.msg)
    (nodes : ∀ {f n}, nodeAt s'.page f = some n → 0 ≤ n.length ∧ n.length ≤ 4000)
    (log : ∃ l, s'.log = s.log ++ l ∧ ∀ p, takenBy p l = [] ∧ receivedBy p l = []) : CallInv s' where
  sends {p' d} hd := by
    by_cases hp : p' = p
    · rw [hp, own.1] at hd
      cases hd
    · exact hc.sends ((others p' hp).calls.1 ▸ hd)
  recvs {p' d} hd := by
    by_cases hp : p' = p
    · rw [hp, own.2.1] at hd
      cases hd
    · exact hc.recvs ((others p' hp).calls.2 ▸ hd)
  nodes := nodes
  delivered p' := by
    obtain ⟨l, hlog, hl⟩ := log
    have hsame : inHand s' p' = inHand s p' := by
      by_cases hp : p' = p
      · subst hp
        rw [own.2.2]
        unfold inHand
        split
        · rename_i hpc
          rw [hpc] at own
          cases own.2.1
        · rfl
      · exact inHand_congr (others p' hp) (hand hp)
    rw [hlog, takenBy_append, receivedBy_append, (hl p').1, (hl p').2, List.append_nil, List.append_nil, hsame]
    exact hc.delivered p'

variable (hc : CallInv s)

include hc

/-- Processes move, and the pages stay. -/
theorem CallInv.quiet (hok : QueueOk s act) (page : s'.page = s.page)
    (pc : ∀ p, s'.pc p = s.pc p ∨ (s.pc p).hand = none ∧ (s'.pc p).hand = none ∧ PlaceOk s.page s.insts ql nl (s'.pc p))
    (calls : ∀ p, CallsFrom act (s.pc p) (s'.pc p)) (log : ∃ l, s'.log = s.log ++ l ∧ ∀ e ∈ l, e.IsRet s.page) : CallInv s' where
  sends {p d} hd := by
    rcases (calls p).1 d hd with h | h
    · exact hc.sends h
    · exact hok.sizes d h
  recvs {p d} hd := by
    rcases (calls p).2 d hd with h | h
    · exact hc.recvs h
    · exact hok.buffers d h
  nodes hn := hc.nodes (page ▸ hn)
  delivered p := by
    obtain ⟨l, hlog, hret⟩ := log
    have hsame : inHand s' p = inHand s p := by
      rcases pc p with heq | ⟨h, h', -⟩
      · exact inHand_congr (.inl heq) fun _ => by rw [page]
      · rw [inHand_of_hand_none h, inHand_of_hand_none h']
    have htaken : takenBy p l = [] := List.filterMap_eq_nil_iff.mpr fun e he => by
      have := hret e he
      cases e <;> simp_all [MsgEvent.IsRet]
    have hreceived : receivedBy p l = [] := List.filterMap_eq_nil_iff.mpr fun e he => by
      have := hret e he
      cases e <;> simp_all [MsgEvent.IsRet]
    rw [hlog, takenBy_append, receivedBy_append, htaken, hreceived, List.append_nil, List.append_nil, hsame]
    exact hc.delivered p

/-- `sys_msgrcv` unlinks a message: it is in the hands of the process. -/
theorem CallInv.unlink {q : QueueRef A} {f : A} {hd tl : Option A} (pc : s.pc p = .receiving q c) (node : nodeAt s.page f = some n)
    (rel : Relinked s.page s'.page q.page hd tl (nl q.page)) (pc' : s'.pc = update s.pc p (.delivering f c))
    (log : s'.log = s.log ++ [.took p q.inst c n.msg]) : CallInv s' := by
  have hpc : ∀ {p'}, p' ≠ p → s'.pc p' = s.pc p' := fun hp => by rw [pc', update_of_ne hp]
  have hself : s'.pc p = .delivering f c := by rw [pc', update_self]
  constructor
  case sends =>
    intro p' d hd
    by_cases hp : p' = p
    · rw [hp, hself] at hd
      cases hd
    · exact hc.sends (hpc hp ▸ hd)
  case recvs =>
    intro p' d hd
    by_cases hp : p' = p
    · rw [hp, hself] at hd
      exact hc.recvs (p := p) (by rw [pc]; exact hd)
    · exact hc.recvs (hpc hp ▸ hd)
  case nodes =>
    intro g m hm
    obtain ⟨m', hm', hb⟩ := rel.node_old hm
    rw [← MsgNode.length_of_body hb]
    exact hc.nodes hm'
  case delivered =>
    intro p'
    rw [log, takenBy_append, receivedBy_append]
    by_cases hp : p' = p
    · subst hp
      obtain ⟨m, hm, hb⟩ := rel.node_some node
      have hold := hc.delivered p'
      rw [inHand_of_hand_none (by rw [pc]; rfl), List.map_nil, List.append_nil] at hold
      simp [takenBy, receivedBy, inHand, hself, hm, MsgNode.msg_of_body hb] at hold ⊢
      exact hold
    · have hsame : inHand s' p' = inHand s p' := inHand_congr (.inl (hpc hp)) fun _ => rel.msg_eq _
      have htaken : takenBy p' [MsgEvent.took p q.inst c n.msg] = [] := by simp [takenBy, Ne.symm hp]
      have hreceived : receivedBy p' [MsgEvent.took p q.inst c n.msg] = [] := rfl
      rw [htaken, hreceived, hsame, List.append_nil, List.append_nil]
      exact hc.delivered p'

/-- What `sys_msgrcv` copies out and returns is the delivery of its message. -/
theorem CallInv.received {f : A} (pc : s.pc p = .delivering f c) (node : nodeAt s.page f = some n) (beyond : Nat → UInt8) :
    (∃ addr, argptr c.sz c.msgp (int32 (LONGSIZE + copysz n.length c.msgsz)) = some addr) ∧
      (n.msgtyp, n.copied beyond (copysz n.length c.msgsz), copysz n.length c.msgsz) = delivery c n.msg := by
  have hvalid : c.Valid := hc.recvs (p := p) (by rw [pc]; rfl)
  obtain ⟨h0, h1⟩ := hc.nodes node
  have hlt : c.msgsz < 2 ^ 32 := by
    obtain ⟨-, hsz, i, -, hfit⟩ := hvalid
    omega
  have hcopy : copysz n.length c.msgsz = min n.length c.msgsz := copysz_eq h0 h1 hvalid.1 hlt
  refine ⟨?_, ?_⟩
  · rw [hcopy]
    have := hvalid.1
    exact hvalid.argptr (by omega) (by omega) (by omega)
  · rw [hcopy, copied_eq beyond h1, delivery]
    simp only [MsgNode.msg, List.length_map, List.length_range, Prod.mk.injEq, true_and]
    omega

variable [DecidableEq A] (hi : QueueInv s ql nl)

include hi

/-- `sys_msgrcv` copies its message out. -/
theorem CallInv.deliver {p : P} {f : A} {c : RecvCall} {n : MsgNode A} {beyond : Nat → UInt8} {e : MsgEvent P}
    (pc : s.pc p = .delivering f c) (node : nodeAt s.page f = some n)
    (event : e = match argptr c.sz c.msgp (int32 (LONGSIZE + copysz n.length c.msgsz)) with
      | none => .ret p (-1)
      | some addr => .received p addr n.msgtyp (n.copied beyond (copysz n.length c.msgsz)) (copysz n.length c.msgsz))
    (page : s'.page = update s.page f .free) (pc' : s'.pc = update s.pc p .user)
    (log : s'.log = s.log ++ [e]) : CallInv s' := by
  obtain ⟨⟨addr, harg⟩, hdel⟩ := hc.received pc node beyond
  rw [harg] at event
  have hpc : ∀ {p'}, p' ≠ p → s'.pc p' = s.pc p' := fun hp => by rw [pc', update_of_ne hp]
  have hself : s'.pc p = .user := by rw [pc', update_self]
  have hf : (s.pc p).hand = some f := by
    rw [pc]
    rfl
  constructor
  case sends =>
    intro p' d hd
    by_cases hp : p' = p
    · rw [hp, hself] at hd
      cases hd
    · exact hc.sends (hpc hp ▸ hd)
  case recvs =>
    intro p' d hd
    by_cases hp : p' = p
    · rw [hp, hself] at hd
      cases hd
    · exact hc.recvs (hpc hp ▸ hd)
  case nodes =>
    intro g m hm
    have hgf : g ≠ f := by
      rintro rfl
      simp [page] at hm
    exact hc.nodes (f := g) (by simpa [page, hgf] using hm)
  case delivered =>
    intro p'
    have htaken : takenBy p' [e] = [] := by
      rw [event]
      rfl
    rw [log, takenBy_append, receivedBy_append, htaken, List.append_nil, hc.delivered p']
    by_cases hp : p' = p
    · subst hp
      have hnow : inHand s p' = [(c, n.msg)] := by simp [inHand, pc, node]
      have hlater : inHand s' p' = [] := inHand_of_hand_none (by rw [hself]; rfl)
      have hreceived : receivedBy p' [e] = [delivery c n.msg] := by
        rw [event, ← hdel]
        simp [receivedBy]
      rw [hnow, hlater, hreceived]
      simp
    · have hreceived : receivedBy p' [e] = [] := by
        rw [event]
        simp [receivedBy, Ne.symm hp]
      have hsame : inHand s' p' = inHand s p' := by
        refine inHand_congr (.inl (hpc hp)) fun {g} hg => ?_
        have hgf : g ≠ f := fun he => hp (hi.hand_inj hg (he ▸ hf))
        simp [page, hgf]
      rw [hreceived, hsame, List.append_nil]

/-- Every outcome of a step of `QueueOk` keeps the sizes and the deliveries. -/
theorem CallInv.outcome (hok : QueueOk s act) (h : Outcome s ql nl act s' ql' nl') : CallInv s' := by
  cases h with
  | quiet page listHead insts nextId fault pc refs calls log mute => exact hc.quiet hok page pc calls log
  | @create p key msgflg a k pc free =>
    have hna : nodeAt s.page a = none := by simp [nodeAt, free]
    refine hc.moved p (fun p' hp => .inl ?_) ?_ ?_ ?_ ⟨[.ret p s.nextId], rfl, fun _ => ⟨rfl, rfl⟩⟩ <;>
      simp only [MsgSt.ret, MsgSt.setPc]
    · rw [update_of_ne hp]
    · rw [update_self]
      exact ⟨rfl, rfl, inHand_of_hand_none (by rw [pc]; rfl)⟩
    · intro p' f _ hf
      obtain ⟨n, hn⟩ := (hi.pcs p').hand hf
      have hfa : f ≠ a := fun he => by simp [he, hna] at hn
      simp [hfa]
    · intro f n hn
      have hfa : f ≠ a := fun he => by simp [he] at hn
      exact hc.nodes (f := f) (by simpa [hfa] using hn)
  | @fill p q c a junk pc free =>
    have hna : nodeAt s.page a = none := by simp [nodeAt, free]
    refine hc.moved p (fun p' hp => .inl ?_) ?_ ?_ ?_ ⟨[], by simp [MsgSt.setPc], fun _ => ⟨rfl, rfl⟩⟩ <;>
      simp only [MsgSt.setPc]
    · rw [update_of_ne hp]
    · rw [update_self]
      exact ⟨rfl, rfl, inHand_of_hand_none (by rw [pc]; rfl)⟩
    · intro p' f _ hf
      obtain ⟨n, hn⟩ := (hi.pcs p').hand hf
      have hfa : f ≠ a := fun he => by simp [he, hna] at hn
      simp [hfa]
    · intro f n hn
      by_cases hfa : f = a
      · subst hfa
        simp only [nodeAt_update, ↓reduceIte, node?_node, Option.some.injEq] at hn
        subst hn
        exact hc.sends (p := p) (d := c) (by rw [pc]; rfl)
      · exact hc.nodes (f := f) (by simpa [hfa] using hn)
  | @append p q f c h hd tl Q pc queue inst rel rep =>
    refine hc.moved p (fun p' hp => ?_) ?_ ?_ ?_ ⟨[.sent p q.inst c.msg, .ret p 0], ?_, fun _ => ⟨rfl, rfl⟩⟩ <;>
      simp only [MsgSt.ret, MsgSt.setPc]
    · rw [update_of_ne hp]
      exact woken_wakeup _ q.page p'
    · rw [update_self]
      exact ⟨rfl, rfl, by simp [inHand, pc]⟩
    · intro p' g _ _
      exact rel.msg_eq g
    · intro g m hm
      obtain ⟨m', hm', hb⟩ := rel.node_old hm
      rw [← MsgNode.length_of_body hb]
      exact hc.nodes hm'
    · simp [MsgSt.wakeup]
  | unlink pc queue inst split node wanted first rel rep => exact hc.unlink pc node rel rfl rfl
  | deliver pc node event => exact hc.deliver hi pc node event rfl rfl rfl
  | @unlist p msqid cmd a Q l₁ l₂ h head pc split queue rel rep =>
    refine hc.moved p (fun p' hp => .inl ?_) ?_ ?_ ?_ ⟨[], by simp [MsgSt.setPc], fun _ => ⟨rfl, rfl⟩⟩ <;>
      simp only [MsgSt.setPc]
    · rw [update_of_ne hp]
    · rw [update_self]
      exact ⟨rfl, rfl, inHand_of_hand_none (by rw [pc]; rfl)⟩
    · intro p' f _ _
      rw [rel.node_eq]
    · intro f n hn
      exact hc.nodes (rel.node_eq f ▸ hn)
  | @drain p q Q h pc queue inst freed rep =>
    have hold : ∀ {g n}, nodeAt (update h q.page (.queue { Q with head := none, tail := none })) g = some n →
        nodeAt s.page g = some n := by
      intro g n hn
      by_cases hgq : g = q.page
      · simp [hgq] at hn
      · by_cases hgl : g ∈ nl q.page
        · simp [nodeAt, hgq, freed, hgl] at hn
        · simpa [nodeAt, hgq, freed, hgl] using hn
    refine hc.moved p (fun p' hp => ?_) ?_ ?_ ?_ ⟨[], by simp [MsgSt.setPc, MsgSt.wakeup], fun _ => ⟨rfl, rfl⟩⟩ <;>
      simp only [MsgSt.setPc]
    · rw [update_of_ne hp]
      exact woken_wakeup _ q.page p'
    · rw [update_self]
      exact ⟨rfl, rfl, inHand_of_hand_none (by rw [pc]; rfl)⟩
    · intro p' f _ hf
      have hfl := (hi.pcs p').loose hf queue
      obtain ⟨n, hn⟩ := (hi.pcs p').hand hf
      have hfq : f ≠ q.page := fun he => by simp [queueAt_of_nodeAt (he ▸ hn)] at queue
      simp [MsgSt.wakeup, nodeAt, hfq, freed, hfl]
    · intro f n hn
      exact hc.nodes (hold hn)
  | @free p q Q pc queue inst =>
    refine hc.moved p (fun p' hp => .inl ?_) ?_ ?_ ?_ ⟨[.ret p 0], rfl, fun _ => ⟨rfl, rfl⟩⟩ <;>
      simp only [MsgSt.ret, MsgSt.setPc]
    · rw [update_of_ne hp]
    · rw [update_self]
      exact ⟨rfl, rfl, inHand_of_hand_none (by rw [pc]; rfl)⟩
    · intro p' f _ hf
      obtain ⟨n, hn⟩ := (hi.pcs p').hand hf
      have hfq : f ≠ q.page := fun he => by simp [queueAt_of_nodeAt (he ▸ hn)] at queue
      simp [hfq]
    · intro f n hn
      have hfq : f ≠ q.page := fun he => by simp [he] at hn
      exact hc.nodes (f := f) (by simpa [hfq] using hn)
  | @env act a c act_eq node queue node' queue' =>
    have hnode : ∀ g, nodeAt (update s.page a c) g = nodeAt s.page g := by
      intro g
      by_cases hg : g = a
      · subst hg
        simp [node', nodeAt, node]
      · simp [hg]
    refine ⟨hc.sends, hc.recvs, fun hn => hc.nodes (hnode _ ▸ hn), fun p => ?_⟩
    have hsame : inHand { s with page := update s.page a c } p = inHand s p :=
      inHand_congr (.inl rfl) fun _ => by rw [hnode]
    rw [hsame]
    exact hc.delivered p

end Step

/-- In every run that uses the queues as they are meant to be, every state has all of the invariants. -/
theorem queueOk_reach [DecidableEq A] [Fintype A] {s : MsgSt P A} (hs : msgSys.Reach QueueOk s) :
    (∃ ql nl, QueueInv s ql nl) ∧ SafeInv s ∧ LogFresh s ∧ CallInv s := by
  refine Sys.Reach.invariant (I := fun s => (∃ ql nl, QueueInv s ql nl) ∧ SafeInv s ∧ LogFresh s ∧ CallInv s) ?_ ?_ hs
  · intro s hb
    refine ⟨⟨[], fun _ => [], .boot hb⟩, .boot hb, fun i _ => ?_, .boot hb⟩
    rw [hb.log]
    exact ⟨rfl, rfl⟩
  · rintro s a s' ⟨⟨ql, nl, hi⟩, hsafe, hf, hc⟩ hok hst
    obtain ⟨ql', nl', hout⟩ := hi.safe_outcome hsafe hst
    exact ⟨⟨ql', nl', hi.outcome hout⟩, hsafe.outcome hi hok.lifetimeOk hout, hi.logFresh hf hout, hc.outcome hi hok hout⟩

end OsLab
