import OsLab.MsgQueue

/-!
# What the pages of the message queues represent

`HeapRep h head insts ql nl` says that the pages `h` hold the list of queues `ql`, from the pointer `head`, and in each queue
`a`, listed or not, the nodes `nl a`, from its `head` to its `tail`. A node belongs to one queue, by its instance, so a change to
one queue and to nodes of it leaves the others as they are (`HeapRep.relink`). There is one lemma for each thing that the message
calls do to the pages.
-/

namespace OsLab

open Function (update update_self update_of_ne)

section Pages

variable {A : Type*} {h h' : A → Page A} {a b f : A} {Q : MsgQueue A} {n : MsgNode A}

@[simp, grind =] theorem node?_node : (Page.node n).node? = some n := rfl
@[simp, grind =] theorem node?_queue : (Page.queue Q).node? = none := rfl
@[simp, grind =] theorem node?_free : (Page.free : Page A).node? = none := rfl
@[simp, grind =] theorem node?_other : (Page.other : Page A).node? = none := rfl
@[simp, grind =] theorem queue?_node : (Page.node n).queue? = none := rfl
@[simp, grind =] theorem queue?_queue : (Page.queue Q).queue? = some Q := rfl
@[simp, grind =] theorem queue?_free : (Page.free : Page A).queue? = none := rfl
@[simp, grind =] theorem queue?_other : (Page.other : Page A).queue? = none := rfl

/-- A page that holds a node holds no queue. -/
@[grind →] theorem queueAt_of_nodeAt (hf : nodeAt h f = some n) : queueAt h f = none := by
  unfold nodeAt at hf
  unfold queueAt
  cases hp : h f <;> simp_all

/-- A page is not both. -/
@[grind →] theorem nodeAt_of_queueAt (hq : queueAt h a = some Q) : nodeAt h a = none := by
  unfold queueAt at hq
  unfold nodeAt
  cases hp : h a <;> simp_all

variable [DecidableEq A]

@[simp, grind =] theorem nodeAt_update (c : Page A) :
    nodeAt (update h a c) b = if b = a then c.node? else nodeAt h b := by
  by_cases hb : b = a
  · subst hb
    simp [nodeAt]
  · simp [nodeAt, hb]

@[simp, grind =] theorem queueAt_update (c : Page A) :
    queueAt (update h a c) b = if b = a then c.queue? else queueAt h b := by
  by_cases hb : b = a
  · subst hb
    simp [queueAt]
  · simp [queueAt, hb]

@[grind =] theorem nodeAt_setNext (m : Option A) : nodeAt (setNext h a m) b =
    if b = a then (nodeAt h b).map ({ · with next := m }) else nodeAt h b := by
  by_cases hb : b = a
  · subst hb
    cases hp : h b <;> simp [setNext, nodeAt, hp]
  · cases hp : h a <;> simp [setNext, nodeAt, hp, hb]

@[grind =] theorem queueAt_setNext (m : Option A) : queueAt (setNext h a m) b =
    if b = a then (queueAt h b).map ({ · with next := m }) else queueAt h b := by
  by_cases hb : b = a
  · subst hb
    cases hp : h b <;> simp [setNext, queueAt, hp]
  · cases hp : h a <;> simp [setNext, queueAt, hp, hb]

end Pages

variable {A : Type*} {l₂ : List A} {c : A}

/-- The queues and their nodes, as lists. -/
structure HeapRep (h : A → Page A) (head : Option A) (insts : Nat) (ql : List A) (nl : A → List A) : Prop where
  list : Chain (nextQueue h) head ql none
  nodes : ∀ {a Q}, queueAt h a = some Q → Chain (nextNode h) Q.head (nl a) none
  tail : ∀ {a Q}, queueAt h a = some Q → Q.tail = (nl a).getLast?
  member : ∀ {a Q f n}, queueAt h a = some Q → f ∈ nl a → nodeAt h f = some n → n.inst = Q.inst
  inst_lt : ∀ {a Q}, queueAt h a = some Q → Q.inst < insts
  node_lt : ∀ {f n}, nodeAt h f = some n → n.inst < insts
  inst_inj : ∀ {a b Q R}, queueAt h a = some Q → queueAt h b = some R → Q.inst = R.inst → a = b

namespace HeapRep

variable {h h' : A → Page A} {head : Option A} {insts : Nat} {ql : List A} {nl : A → List A} {a f : A} {Q : MsgQueue A}
  {n : MsgNode A} (hr : HeapRep h head insts ql nl)

include hr

/-- What a queue lists are nodes of its own. -/
theorem nodeAt_of_mem (hq : queueAt h a = some Q) (hf : f ∈ nl a) : ∃ n, nodeAt h f = some n ∧ n.inst = Q.inst := by
  have hs := (hr.nodes hq).isSome_next hf
  rw [nextNode, Option.isSome_map] at hs
  obtain ⟨n, hn⟩ := Option.isSome_iff_exists.mp hs
  exact ⟨n, hn, hr.member hq hf hn⟩

theorem queueAt_of_mem (ha : a ∈ ql) : ∃ Q, queueAt h a = some Q := by
  have hs := hr.list.isSome_next ha
  rw [nextQueue, Option.isSome_map] at hs
  exact Option.isSome_iff_exists.mp hs

/-- Nodes that no queue has may come, change and go. -/
theorem frame (hq : ∀ a, queueAt h' a = queueAt h a)
    (hn : ∀ a Q, queueAt h a = some Q → ∀ f ∈ nl a, nodeAt h' f = nodeAt h f)
    (hlt : ∀ f n, nodeAt h' f = some n → n.inst < insts) : HeapRep h' head insts ql nl where
  list := hr.list.congr fun a _ => by simp only [nextQueue, hq]
  nodes {a Q} ha := by
    rw [hq] at ha
    exact (hr.nodes ha).congr fun f hf => by simp only [nextNode, hn a Q ha f hf]
  tail ha := hr.tail (hq _ ▸ ha)
  member {a Q f n} ha hf hfn := by
    rw [hq] at ha
    exact hr.member ha hf (hn a Q ha f hf ▸ hfn)
  inst_lt ha := hr.inst_lt (hq _ ▸ ha)
  node_lt := hlt _ _
  inst_inj ha hb := hr.inst_inj (hq _ ▸ ha) (hq _ ▸ hb)

end HeapRep

/-- A node without its pointer. -/
def MsgNode.body (n : MsgNode A) : MsgNode A := { n with next := none }

/-- `h'` is `h` with these pointers in the queue on the page `a`, and with other pointers in nodes of the list. -/
structure Relinked (h h' : A → Page A) (a : A) (hd tl : Option A) (l : List A) : Prop where
  self : queueAt h' a = (queueAt h a).map ({ · with head := hd, tail := tl })
  queue_eq : ∀ {b}, b ≠ a → queueAt h' b = queueAt h b
  node_eq : ∀ {g}, g ∉ l → nodeAt h' g = nodeAt h g
  body : ∀ g, (nodeAt h' g).map MsgNode.body = (nodeAt h g).map MsgNode.body

namespace Relinked

variable {h h' : A → Page A} {a b g : A} {hd tl : Option A} {l : List A} {n : MsgNode A} {R : MsgQueue A}
  (hrel : Relinked h h' a hd tl l)

include hrel

/-- Every node is still there, with its instance and its message. -/
theorem node_some (hn : nodeAt h g = some n) : ∃ m, nodeAt h' g = some m ∧ m.body = n.body := by
  have := hrel.body g
  rw [hn, Option.map_some, Option.map_eq_some_iff] at this
  exact this

/-- The nodes are those of before, but for their links. -/
theorem node_old (hn : nodeAt h' g = some n) : ∃ m, nodeAt h g = some m ∧ m.body = n.body := by
  have := hrel.body g
  rw [hn, Option.map_some, eq_comm, Option.map_eq_some_iff] at this
  exact this

/-- And so is every queue. -/
theorem queue_old (hR : queueAt h' b = some R) :
    ∃ S, queueAt h b = some S ∧ R.next = S.next ∧ R.inst = S.inst ∧ R.id = S.id ∧ R.key = S.key := by
  by_cases hb : b = a
  · subst hb
    rw [hrel.self, Option.map_eq_some_iff] at hR
    obtain ⟨S, hS, rfl⟩ := hR
    exact ⟨S, hS, rfl, rfl, rfl, rfl⟩
  · exact ⟨R, hrel.queue_eq hb ▸ hR, rfl, rfl, rfl, rfl⟩

/-- The queues keep their identity and their place in the list. -/
theorem queue_some (hR : queueAt h b = some R) :
    ∃ S, queueAt h' b = some S ∧ S.next = R.next ∧ S.inst = R.inst ∧ S.id = R.id ∧ S.key = R.key := by
  by_cases hb : b = a
  · subst hb
    have hb' := hrel.self
    rw [hR, Option.map_some] at hb'
    exact ⟨_, hb', rfl, rfl, rfl, rfl⟩
  · exact ⟨R, (hrel.queue_eq hb).trans hR, rfl, rfl, rfl, rfl⟩

theorem nextQueue_eq : nextQueue h' = nextQueue h := by
  funext b
  cases hb : queueAt h b with
  | some R =>
    obtain ⟨S, hS, hnext, -⟩ := hrel.queue_some hb
    simp [nextQueue, hb, hS, hnext]
  | none =>
    have : queueAt h' b = none := by
      cases hb' : queueAt h' b with
      | none => rfl
      | some R =>
        obtain ⟨S, hS, -⟩ := hrel.queue_old hb'
        simp [hb] at hS
    simp [nextQueue, hb, this]

end Relinked

section

variable {h : A → Page A} {a t : A} {Q : MsgQueue A} {m : MsgNode A} [DecidableEq A]

/-- The pointers of a queue are set. -/
theorem Relinked.of_queue (hQ : queueAt h a = some Q) (hd tl : Option A) (l : List A) :
    Relinked h (update h a (.queue { Q with head := hd, tail := tl })) a hd tl l where
  self := by simp [hQ]
  queue_eq hb := by simp [hb]
  node_eq {g} _ := by
    have := nodeAt_of_queueAt hQ
    grind
  body g := by
    have := nodeAt_of_queueAt hQ
    grind

/-- The pointers of a queue and of one of its nodes are set. -/
theorem Relinked.of_setNext {l : List A} (hQ : queueAt h a = some Q) (hm : nodeAt h t = some m) (ht : t ∈ l)
    (hd tl k : Option A) : Relinked h (update (setNext h t k) a (.queue { Q with head := hd, tail := tl })) a hd tl l where
  self := by simp [hQ]
  queue_eq {b} hb := by
    have := queueAt_of_nodeAt hm
    grind
  node_eq {g} hg := by
    have := nodeAt_of_queueAt hQ
    grind
  body g := by
    have := nodeAt_of_queueAt hQ
    grind [MsgNode.body]

end

/-- A queue without its pointer to the next one. -/
def MsgQueue.body (q : MsgQueue A) : MsgQueue A := { q with next := none }

/-- What the body of a queue fixes. -/
theorem MsgQueue.of_body {q r : MsgQueue A} (hb : q.body = r.body) :
    q.id = r.id ∧ q.key = r.key ∧ q.head = r.head ∧ q.tail = r.tail ∧ q.inst = r.inst := by
  simp only [body, mk.injEq] at hb
  exact hb.2

/-- `h'` is `h` with other pointers from queue to queue. -/
structure Relisted (h h' : A → Page A) : Prop where
  node_eq : ∀ f, nodeAt h' f = nodeAt h f
  body : ∀ a, (queueAt h' a).map MsgQueue.body = (queueAt h a).map MsgQueue.body

theorem Relisted.refl (h : A → Page A) : Relisted h h := ⟨fun _ => rfl, fun _ => rfl⟩

/-- The queues are those of before, but for their links. -/
theorem Relisted.queue_old {h h' : A → Page A} {a : A} {Q : MsgQueue A} (hrel : Relisted h h') (hQ : queueAt h' a = some Q) :
    ∃ R, queueAt h a = some R ∧ R.body = Q.body := by
  have := hrel.body a
  rw [hQ, Option.map_some, eq_comm, Option.map_eq_some_iff] at this
  exact this

theorem Relisted.queue_some {h h' : A → Page A} {a : A} {Q : MsgQueue A} (hrel : Relisted h h') (hQ : queueAt h a = some Q) :
    ∃ R, queueAt h' a = some R ∧ R.body = Q.body := by
  have := hrel.body a
  rw [hQ, Option.map_some, Option.map_eq_some_iff] at this
  exact this

/-- A new link in the list of the queues is all that changes. -/
theorem Relisted.of_setNext [DecidableEq A] {h : A → Page A} {b : A} {R : MsgQueue A} (hR : queueAt h b = some R)
    (m : Option A) : Relisted h (setNext h b m) where
  node_eq f := by
    have := nodeAt_of_queueAt hR
    grind
  body a := by
    grind [MsgQueue.body]

theorem MsgNode.inst_of_body {m n : MsgNode A} (hb : m.body = n.body) : m.inst = n.inst := by
  simp only [body, mk.injEq] at hb
  exact hb.2.2.2.2

theorem MsgNode.length_of_body {m n : MsgNode A} (hb : m.body = n.body) : m.length = n.length := by
  simp only [body, mk.injEq] at hb
  exact hb.2.2.1

theorem MsgNode.msg_of_body {m n : MsgNode A} (hb : m.body = n.body) : m.msg = n.msg := by
  simp only [body, mk.injEq] at hb
  obtain ⟨-, htyp, hlen, hdata, -⟩ := hb
  simp only [msg, htyp, hlen, hdata]

/-- The messages stay as they are. -/
theorem Relinked.msg_eq {h h' : A → Page A} {a : A} {hd tl : Option A} {l : List A} (hrel : Relinked h h' a hd tl l) (g : A) :
    (nodeAt h' g).map MsgNode.msg = (nodeAt h g).map MsgNode.msg := by
  cases hg : nodeAt h g with
  | some n =>
    obtain ⟨m, hm, hb⟩ := hrel.node_some hg
    rw [hm, Option.map_some, Option.map_some, MsgNode.msg_of_body hb]
  | none =>
    have hnone := hrel.body g
    rw [hg, Option.map_none, Option.map_eq_none_iff] at hnone
    rw [hnone]

/-- The loop that frees the nodes of a chain frees these pages and no others. -/
theorem freeNodes_eq [DecidableEq A] {h : A → Page A} {hd : Option A} {l : List A} {k : Nat}
    (hl : Chain (nextNode h) hd l none) (hk : l.length < k) :
    freeNodes h k hd = .ok fun x => if x ∈ l then .free else h x := by
  induction l generalizing h hd k with
  | nil =>
    rw [Chain.nil_iff] at hl
    subst hl
    obtain ⟨k, rfl⟩ := Nat.exists_eq_succ_of_ne_zero (by omega : k ≠ 0)
    simp [freeNodes]
  | cons a l ih =>
    have hnd := List.nodup_cons.mp hl.nodup
    obtain ⟨rfl, m, hm, hl⟩ := hl
    obtain ⟨k, rfl⟩ := Nat.exists_eq_succ_of_ne_zero (by omega : k ≠ 0)
    obtain ⟨n, hn, rfl⟩ := Option.map_eq_some_iff.mp hm
    have hl' : Chain (nextNode (update h a .free)) n.next l none := by
      refine hl.congr fun b hb => ?_
      have hba : b ≠ a := fun he => hnd.1 (he ▸ hb)
      simp [nextNode, hba]
    simp only [freeNodes, hn, ih hl' (by simpa using hk)]
    congr 1
    funext x
    by_cases hx : x = a
    · simp [hx, hnd.1]
    · simp [hx]

namespace HeapRep

variable {h h' : A → Page A} {head : Option A} {insts : Nat} {ql : List A} {nl : A → List A} {a f : A} {Q : MsgQueue A}
  {n : MsgNode A} (hr : HeapRep h head insts ql nl)

include hr

/-- The list gets other queues, by other pointers between them. -/
theorem relist {head' : Option A} {ql' : List A} (hrel : Relisted h h') (hl : Chain (nextQueue h') head' ql' none) :
    HeapRep h' head' insts ql' nl := by
  have hnext : nextNode h' = nextNode h := by
    funext f
    simp only [nextNode, hrel.node_eq]
  constructor
  case list => exact hl
  case nodes =>
    intro a Q hQ
    obtain ⟨R, hR, hb⟩ := hrel.queue_old hQ
    obtain ⟨-, -, hhead, -⟩ := MsgQueue.of_body hb
    rw [hnext, ← hhead]
    exact hr.nodes hR
  case tail =>
    intro a Q hQ
    obtain ⟨R, hR, hb⟩ := hrel.queue_old hQ
    obtain ⟨-, -, -, htail, -⟩ := MsgQueue.of_body hb
    exact htail ▸ hr.tail hR
  case member =>
    intro a Q f n hQ hf hn
    obtain ⟨R, hR, hb⟩ := hrel.queue_old hQ
    rw [hrel.node_eq] at hn
    exact (hr.member hR hf hn).trans (MsgQueue.of_body hb).2.2.2.2
  case inst_lt =>
    intro a Q hQ
    obtain ⟨R, hR, hb⟩ := hrel.queue_old hQ
    exact (MsgQueue.of_body hb).2.2.2.2 ▸ hr.inst_lt hR
  case node_lt => exact fun hn => hr.node_lt (hrel.node_eq _ ▸ hn)
  case inst_inj =>
    intro a b Q R hQ hR hi
    obtain ⟨Q', hQ', hq⟩ := hrel.queue_old hQ
    obtain ⟨R', hR', hr'⟩ := hrel.queue_old hR
    refine hr.inst_inj hQ' hR' ?_
    rw [(MsgQueue.of_body hq).2.2.2.2, (MsgQueue.of_body hr').2.2.2.2, hi]

/-- `sys_msgctl` takes the first queue off the list. -/
theorem unlist_first (hl : ql = c :: l₂) (hc : queueAt h c = some Q) : HeapRep h Q.next insts l₂ nl := by
  refine hr.relist (Relisted.refl h) ?_
  obtain ⟨-, m, hm, hl₂⟩ := hl ▸ hr.list
  simp only [nextQueue, hc, Option.map_some, Option.some.injEq] at hm
  exact hm ▸ hl₂

variable [DecidableEq A]

/-- One queue gets another list of nodes: the other queues keep theirs, since no node is in two. -/
theorem relink {hd tl : Option A} {l : List A} (hQ : queueAt h a = some Q) (hrel : Relinked h h' a hd tl (nl a))
    (hl : Chain (nextNode h') hd l none) (htail : tl = l.getLast?)
    (hmem : ∀ f ∈ l, ∀ n, nodeAt h f = some n → n.inst = Q.inst) : HeapRep h' head insts ql (update nl a l) := by
  have hself : ∀ {R}, queueAt h' a = some R → R = { Q with head := hd, tail := tl } := fun hR => by
    rw [hrel.self, hQ] at hR
    exact (Option.some.inj hR).symm
  constructor
  case list => exact hrel.nextQueue_eq ▸ hr.list
  case nodes =>
    intro b R hb
    by_cases hba : b = a
    · subst hba
      rw [hself hb, update_self]
      exact hl
    · rw [hrel.queue_eq hba] at hb
      rw [update_of_ne hba]
      refine (hr.nodes hb).congr fun f hf => ?_
      obtain ⟨n, hn, hni⟩ := hr.nodeAt_of_mem hb hf
      have hfl : f ∉ nl a := fun hfa => hba (hr.inst_inj hb hQ (hni ▸ hr.member hQ hfa hn))
      simp only [nextNode, hrel.node_eq hfl]
  case tail =>
    intro b R hb
    by_cases hba : b = a
    · subst hba
      rw [hself hb, update_self]
      exact htail
    · rw [update_of_ne hba]
      exact hr.tail (hrel.queue_eq hba ▸ hb)
  case member =>
    intro b R f n hb hf hn
    obtain ⟨m, hm, hmn⟩ := hrel.node_old hn
    rw [← MsgNode.inst_of_body hmn]
    by_cases hba : b = a
    · subst hba
      rw [update_self] at hf
      rw [hself hb]
      exact hmem f hf m hm
    · rw [update_of_ne hba] at hf
      exact hr.member (hrel.queue_eq hba ▸ hb) hf hm
  case inst_lt =>
    intro b R hb
    obtain ⟨S, hS, -, hi, -⟩ := hrel.queue_old hb
    exact hi ▸ hr.inst_lt hS
  case node_lt =>
    intro f n hn
    obtain ⟨m, hm, hmn⟩ := hrel.node_old hn
    exact MsgNode.inst_of_body hmn ▸ hr.node_lt hm
  case inst_inj =>
    intro b c R S hb hc hi
    obtain ⟨R', hR', -, hRi, -⟩ := hrel.queue_old hb
    obtain ⟨S', hS', -, hSi, -⟩ := hrel.queue_old hc
    exact hr.inst_inj hR' hS' (by rw [← hRi, ← hSi, hi])

/-- `sys_msgget` puts a new queue on a free page, in front of the list. -/
theorem create (hfree : h a = .free) (id key : Int) :
    HeapRep (update h a (.queue ⟨head, id, key, none, none, insts⟩)) (some a) (insts + 1) (a :: ql)
      (update nl a []) := by
  have hqa : queueAt h a = none := by simp [queueAt, hfree]
  have hna : nodeAt h a = none := by simp [nodeAt, hfree]
  have hal : ∀ {b R}, queueAt h b = some R → a ∉ nl b := fun hb ha => by
    obtain ⟨n, hn, -⟩ := hr.nodeAt_of_mem hb ha
    simp [hna] at hn
  have haql : a ∉ ql := fun ha => by
    obtain ⟨R, hR⟩ := hr.queueAt_of_mem ha
    simp [hqa] at hR
  constructor
  case list =>
    refine ⟨rfl, head, by simp [nextQueue], hr.list.congr fun b hb => ?_⟩
    have hba : b ≠ a := fun he => haql (he ▸ hb)
    simp [nextQueue, hba]
  case nodes =>
    intro b R hb
    by_cases hba : b = a
    · subst hba
      simp only [queueAt_update, ↓reduceIte, queue?_queue, Option.some.injEq] at hb
      subst hb
      simp
    · simp only [queueAt_update, hba, ↓reduceIte] at hb
      rw [update_of_ne hba]
      refine (hr.nodes hb).congr fun f hf => ?_
      have hfa : f ≠ a := fun he => hal hb (he ▸ hf)
      simp [nextNode, hfa]
  case tail =>
    intro b R hb
    have := @hr.tail b R
    grind
  case member =>
    intro b R f n hb hf hn
    have := @hr.member b R f n
    grind
  case inst_lt =>
    intro b R hb
    have := @hr.inst_lt b R
    grind
  case node_lt =>
    intro f n hn
    have := @hr.node_lt f n
    grind
  case inst_inj =>
    intro b c R S hb hc
    have := @hr.inst_inj b c R S
    have := @hr.inst_lt b R
    have := @hr.inst_lt c S
    grind

/-- `sys_msgsnd` links a node behind the last one of its queue. -/
theorem append (hQ : queueAt h a = some Q) (hn : nodeAt h f = some n) (hnext : n.next = none) (hinst : n.inst = Q.inst)
    (hloose : f ∉ nl a) : ∃ h' hd tl, msgsndAppend h a Q f = .ok h' ∧ Relinked h h' a hd tl (nl a) ∧
      HeapRep h' head insts ql (update nl a (nl a ++ [f])) := by
  have hhead := (hr.nodes hQ).head?_eq
  have htail := hr.tail hQ
  have hfa : f ≠ a := fun he => by simp [queueAt_of_nodeAt (he ▸ hn)] at hQ
  have hmem : ∀ g ∈ nl a ++ [f], ∀ m, nodeAt h g = some m → m.inst = Q.inst := by
    intro g hg m hm
    rcases List.mem_append.mp hg with hg | hg
    · exact hr.member hQ hg hm
    · rw [List.mem_singleton.mp hg, hn] at hm
      cases hm
      exact hinst
  rcases List.eq_nil_or_concat' (nl a) with hl | ⟨r, t, hl⟩
  · -- the queue is empty: `head` and `tail` are both set
    have hok : msgsndAppend h a Q f = .ok (update h a (.queue { Q with head := some f, tail := some f })) := by
      simp only [msgsndAppend, hhead, hl, List.head?_nil]
    have hrel := Relinked.of_queue hQ (some f) (some f) (nl a)
    refine ⟨_, _, _, hok, hrel, hr.relink hQ hrel ?_ (by simp) hmem⟩
    simp [hl, nextNode, hfa, hn, hnext]
  · obtain ⟨m, hm, hmi⟩ := hr.nodeAt_of_mem hQ (f := t) (by simp [hl])
    have hhd : ∃ x, Q.head = some x := by
      rw [hhead, hl]
      cases r <;> simp
    have hta : t ≠ a := fun he => by simp [queueAt_of_nodeAt (he ▸ hm)] at hQ
    have hft : f ≠ t := fun he => hloose (by simp [hl, he])
    have hlast : (nl a).getLast? = some t := by simp [hl]
    have hok : msgsndAppend h a Q f =
        .ok (update (setNext h t (some f)) a (.queue { Q with tail := some f })) := by
      obtain ⟨x, hx⟩ := hhd
      simp only [msgsndAppend, hx, htail, hlast, hm]
    have hrel := Relinked.of_setNext (l := nl a) hQ hm (by simp [hl]) Q.head (some f) (some f)
    refine ⟨_, _, _, hok, hrel, hr.relink hQ hrel ?_ (by simp) hmem⟩
    refine (hr.nodes hQ).snoc hlast ?_ ?_ ?_
    · simp [nextNode, hta, nodeAt_setNext, hm]
    · simp [nextNode, hfa, hft, nodeAt_setNext, hn, hnext]
    · intro g hg hgt
      grind [nextNode]

/-- `sys_msgrcv` unlinks a node. -/
theorem unlink {l₁ : List A} (hQ : queueAt h a = some Q) (hl : nl a = l₁ ++ c :: l₂) (hc : nodeAt h c = some n) :
    ∃ hd tl, Relinked h (msgrcvUnlink h a Q l₁.getLast? c n.next) a hd tl (nl a) ∧
      HeapRep (msgrcvUnlink h a Q l₁.getLast? c n.next) head insts ql (update nl a (l₁ ++ l₂)) := by
  have hsplit := hr.nodes hQ
  rw [hl] at hsplit
  have htail := hr.tail hQ
  have hlast := hsplit.getLast?_unlink
  rw [← hl, ← htail] at hlast
  have hsub : ∀ g ∈ l₁ ++ l₂, g ∈ nl a := by
    intro g hg
    rw [hl]
    simp only [List.mem_append, List.mem_cons] at hg ⊢
    tauto
  have hmem : ∀ g ∈ l₁ ++ l₂, ∀ m, nodeAt h g = some m → m.inst = Q.inst := fun g hg m hm => hr.member hQ (hsub g hg) hm
  have hca : ∀ g ∈ nl a, g ≠ a := fun g hg he => by
    obtain ⟨m, hm, -⟩ := hr.nodeAt_of_mem hQ hg
    simp [queueAt_of_nodeAt (he ▸ hm)] at hQ
  cases hprev : l₁.getLast? with
  | none =>
    have hheap : msgrcvUnlink h a Q none c n.next =
        update h a (.queue { Q with head := n.next, tail := if Q.tail = some c then none else Q.tail }) := rfl
    rw [hheap]
    have hrel := Relinked.of_queue hQ n.next (if Q.tail = some c then none else Q.tail) (nl a)
    refine ⟨_, _, hrel, hr.relink hQ hrel ?_ (by rw [hlast, hprev]) hmem⟩
    refine hsplit.unlink (m := n.next) (by simp [nextNode, hc]) (by simp [hprev]) (by simp [hprev]) ?_
    intro g hg _
    simp [nextNode, hca g (hsub g hg)]
  | some t =>
    have ht : t ∈ nl a := by
      rw [hl]
      exact List.mem_append_left _ (List.mem_of_getLast? hprev)
    obtain ⟨m, hm, -⟩ := hr.nodeAt_of_mem hQ ht
    have hheap : msgrcvUnlink h a Q (some t) c n.next =
        update (setNext h t n.next) a (.queue { Q with tail := if Q.tail = some c then some t else Q.tail }) := rfl
    rw [hheap]
    have hrel := Relinked.of_setNext hQ hm ht Q.head (if Q.tail = some c then some t else Q.tail) n.next
    refine ⟨_, _, hrel, hr.relink hQ hrel ?_ (by rw [hlast, hprev]) hmem⟩
    refine hsplit.unlink (m := n.next) (by simp [nextNode, hc]) (by simp [hprev]) ?_ ?_
    · intro p hp
      rw [hprev] at hp
      cases hp
      simp [nextNode, hca t ht, nodeAt_setNext, hm]
    · intro g hg hgt
      have hga := hca g (hsub g hg)
      have : g ≠ t := fun he => hgt (he ▸ hprev)
      simp [nextNode, hga, nodeAt_setNext, this]

/-- `sys_msgctl` takes off the list a queue that is not the first. -/
theorem unlist {l₁ : List A} {b : A} (hl : ql = l₁ ++ c :: l₂) (hc : queueAt h c = some Q) (hb : l₁.getLast? = some b) :
    Relisted h (setNext h b Q.next) ∧ HeapRep (setNext h b Q.next) head insts (l₁ ++ l₂) nl := by
  have hsplit := hr.list
  rw [hl] at hsplit
  obtain ⟨R, hR⟩ := hr.queueAt_of_mem (a := b) (by
    rw [hl]
    exact List.mem_append_left _ (List.mem_of_getLast? hb))
  have hrel := Relisted.of_setNext hR Q.next
  refine ⟨hrel, hr.relist hrel ?_⟩
  refine hsplit.unlink (m := Q.next) (by simp [nextQueue, hc]) (by simp [hb]) ?_ ?_
  · intro p hp
    rw [hb] at hp
    cases hp
    simp [nextQueue, queueAt_setNext, hR]
  · intro g _ hg
    have : g ≠ b := fun he => hg (he ▸ hb)
    simp [nextQueue, queueAt_setNext, this]

/-- `sys_msgctl` frees the nodes of a queue, and then clears its pointers. -/
theorem drain [Fintype A] (hQ : queueAt h a = some Q) : ∃ h', freeNodes h (Fintype.card A + 1) Q.head = .ok h' ∧
    (∀ x, h' x = if x ∈ nl a then .free else h x) ∧
    HeapRep (update h' a (.queue { Q with head := none, tail := none })) head insts ql (update nl a []) := by
  have hl := hr.nodes hQ
  refine ⟨_, freeNodes_eq hl (Nat.lt_succ_of_le hl.length_le_card), fun x => rfl, ?_⟩
  -- cleared first and freed after, the pages are the same
  have hrel := Relinked.of_queue hQ none none (nl a)
  have hclear := hr.relink (l := []) hQ hrel rfl rfl (by simp)
  have ha : a ∉ nl a := fun ha => by
    obtain ⟨n, hn, -⟩ := hr.nodeAt_of_mem hQ ha
    simp [queueAt_of_nodeAt hn] at hQ
  have hnot : ∀ {x R}, queueAt h x = some R → x ∉ nl a := fun hx hxa => by
    obtain ⟨n, hn, -⟩ := hr.nodeAt_of_mem hQ hxa
    simp [queueAt_of_nodeAt hn] at hx
  refine hclear.frame ?_ ?_ ?_
  · intro b
    by_cases hb : b = a
    · subst hb
      simp
    · simp only [queueAt_update, hb, ↓reduceIte]
      cases hR : queueAt h b with
      | some R => simpa [queueAt, hnot hR] using hR
      | none =>
        by_cases hbl : b ∈ nl a
        · simp [queueAt, hbl]
        · simpa [queueAt, hbl] using hR
  · intro b R hb f hf
    by_cases hba : b = a
    · subst hba
      simp at hf
    · rw [hrel.queue_eq hba] at hb
      rw [update_of_ne hba] at hf
      obtain ⟨n, hn, hni⟩ := hr.nodeAt_of_mem hb hf
      have hfl : f ∉ nl a := fun hfa => hba (hr.inst_inj hb hQ (hni ▸ hr.member hQ hfa hn))
      have hfa : f ≠ a := fun he => by simp [queueAt_of_nodeAt (he ▸ hn)] at hQ
      simp [nodeAt, hfl, hfa]
  · intro f n hn
    by_cases hfl : f ∈ nl a
    · have hfa : f ≠ a := fun he => ha (he ▸ hfl)
      simp [nodeAt, hfl, hfa] at hn
    · by_cases hfa : f = a
      · simp [hfa] at hn
      · refine hr.node_lt (f := f) ?_
        simpa [nodeAt, hfl, hfa] using hn

/-- `sys_msgctl` frees a queue that is off the list. -/
theorem freeQueue (hQ : queueAt h a = some Q) (ha : a ∉ ql) : HeapRep (update h a .free) head insts ql nl := by
  have hold : ∀ {b R}, queueAt (update h a .free) b = some R → b ≠ a ∧ queueAt h b = some R := by
    intro b R hb
    by_cases hba : b = a
    · simp [hba] at hb
    · exact ⟨hba, by simpa [hba] using hb⟩
  have hnode : ∀ f, nodeAt (update h a .free) f = nodeAt h f := by
    intro f
    have := nodeAt_of_queueAt hQ
    grind
  constructor
  case list =>
    refine hr.list.congr fun b hb => ?_
    have hba : b ≠ a := fun he => ha (he ▸ hb)
    simp [nextQueue, hba]
  case nodes =>
    intro b R hb
    refine (hr.nodes (hold hb).2).congr fun f _ => ?_
    simp only [nextNode, hnode]
  case tail => exact fun hb => hr.tail (hold hb).2
  case member => exact fun hb hf hn => hr.member (hold hb).2 hf (hnode _ ▸ hn)
  case inst_lt => exact fun hb => hr.inst_lt (hold hb).2
  case node_lt => exact fun hn => hr.node_lt (hnode _ ▸ hn)
  case inst_inj => exact fun hb hc => hr.inst_inj (hold hb).2 (hold hc).2

end HeapRep

end OsLab
