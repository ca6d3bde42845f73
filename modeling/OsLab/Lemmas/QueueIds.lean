import OsLab.QueueIds
import OsLab.Lemmas.MailView

/-!
# What holds of the keys and ids of queues

Along every run the list of queues is a registry (`queueRegistry_step`), for a queue is created only under a key that the search did
not find; and the id of a queue is the number of the queues created before it, plus one, as an `int` (`IdsOk`).
-/

namespace OsLab

namespace QueueIdAux

variable {P A : Type*} {a : A} {Q : MsgQueue A} {M : PageMap A}

/-- The same queue, whatever is in it and behind it. -/
def SameQueue (Q R : MsgQueue A) : Prop := R.inst = Q.inst ∧ R.id = Q.id ∧ R.key = Q.key

/-- Every queue of `h'` is a queue of `h`. -/
def QueuesFrom (h h' : A → Page A) : Prop := ∀ b R, queueAt h' b = some R → ∃ Q, queueAt h b = some Q ∧ SameQueue Q R

theorem QueuesFrom.of_eq {h h' : A → Page A} (hq : ∀ b R, queueAt h' b = some R → queueAt h b = some R) : QueuesFrom h h' := by
  intro b R hR
  exact ⟨R, hq b R hR, rfl, rfl, rfl⟩

/-- A change of the nodes makes no queue. -/
theorem QueuesFrom.of_relinked {h h' : A → Page A} {hd tl : Option A} {l : List A} (rel : Relinked h h' a hd tl l) : QueuesFrom h h' := by
  intro b R hR
  obtain ⟨Q, hQ, -, hinst, hid, hkey⟩ := rel.queue_old hR
  exact ⟨Q, hQ, hinst, hid, hkey⟩

/-- Nor does a change of the list. -/
theorem QueuesFrom.of_relisted {h h' : A → Page A} (rel : Relisted h h') : QueuesFrom h h' := by
  intro b R hR
  obtain ⟨Q, hQ, hb⟩ := rel.queue_old hR
  obtain ⟨hid, hkey, -, -, hinst⟩ := MsgQueue.of_body hb
  exact ⟨Q, hQ, hinst.symm, hid.symm, hkey.symm⟩

variable [DecidableEq A]

theorem QueuesFrom.of_update {h : A → Page A} {c : Page A} (hc : c.queue? = none) : QueuesFrom h (Function.update h a c) := by
  refine .of_eq fun b R hR => ?_
  have hb : b ≠ a := by
    rintro rfl
    simp [hc] at hR
  simpa [hb] using hR

theorem QueuesFrom.of_drain {h h' : A → Page A} {l : List A} (queue : queueAt h a = some Q)
    (freed : ∀ x, h' x = if x ∈ l then .free else h x) :
    QueuesFrom h (Function.update h' a (.queue { Q with head := none, tail := none })) := by
  intro b R hR
  by_cases hb : b = a
  · subst hb
    simp only [queueAt_update, ↓reduceIte, queue?_queue, Option.some.injEq] at hR
    subst hR
    exact ⟨Q, queue, rfl, rfl, rfl⟩
  · by_cases hbl : b ∈ l
    · simp [queueAt, hb, freed, hbl] at hR
    · exact ⟨R, by simpa [queueAt, hb, freed, hbl] using hR, rfl, rfl, rfl⟩

/-- Queues come only by `sys_msgget`. -/
theorem queuesFrom_of_outcome [DecidableEq P] {s s' : MsgSt P A} {ql ql' : List A} {nl nl' : A → List A} {act : MsgAct P A}
    (h : Outcome s ql nl act s' ql' nl') (hinsts : s'.insts = s.insts) : QueuesFrom s.page s'.page := by
  cases h with
  | quiet page listHead insts nextId fault pc refs calls log mute => exact .of_eq fun b R hR => page ▸ hR
  | create k pc free => exact absurd hinsts (Nat.succ_ne_self _)
  | fill pc free | deliver pc node event | free pc queue inst => exact .of_update rfl
  | append pc queue inst rel rep | unlink pc queue inst split node wanted first rel rep => exact .of_relinked rel
  | unlist pc split queue rel rep => exact .of_relisted rel
  | drain pc queue inst freed rep => exact .of_drain queue freed
  | env act_eq node queue node' queue' => exact .of_update queue'

/-! ## Ids -/

/-- The ids that queues have, the one that comes next, and what the calls have returned. -/
structure IdsOk (s : MsgSt P A) : Prop where
  nextId : s.nextId = int32 (s.insts + 1)
  id : ∀ a Q, queueAt s.page a = some Q → Q.id = int32 (Q.inst + 1)
  rets : ∀ p r, MsgEvent.ret p r ∈ s.log → r ≤ s.insts

omit [DecidableEq A] in
theorem IdsOk.boot {s : MsgSt P A} (hb : s.Boot) : IdsOk s where
  nextId := by
    rw [hb.nextId, hb.insts]
    decide
  id a Q hQ := by
    rcases hb.page a with h | h <;> simp [queueAt, h] at hQ
  rets p r hr := by
    rw [hb.log] at hr
    cases hr

theorem int32_le {n : Int} (hn : 0 ≤ n) : int32 n ≤ n := by
  unfold int32
  rw [Int.bmod_def]
  split <;> omega

variable {s s' : MsgSt P A} {ql ql' : List A} {nl nl' : A → List A} {act : MsgAct P A}

omit [DecidableEq A] in
/-- A step that creates no queue. -/
theorem IdsOk.kept (hs : IdsOk s) (hi : QueueInv s ql nl) (hnext : s'.nextId = s.nextId) (hinsts : s'.insts = s.insts)
    (hq : QueuesFrom s.page s'.page) {l : List (MsgEvent P)} (hlog : s'.log = s.log ++ l)
    (hl : ∀ p r, MsgEvent.ret p r ∈ l → r ≤ 0 ∨ ∃ a Q, queueAt s.page a = some Q ∧ r = Q.id) : IdsOk s' where
  nextId := by rw [hnext, hinsts, hs.nextId]
  id a R hR := by
    obtain ⟨Q, hQ, hinst, hid, -⟩ := hq a R hR
    rw [hid, hinst, hs.id a Q hQ]
  rets p r hr := by
    rw [hinsts]
    rw [hlog, List.mem_append] at hr
    rcases hr with hr | hr
    · exact hs.rets p r hr
    · rcases hl p r hr with hle | ⟨a, Q, hQ, rfl⟩
      · omega
      · have hlt := hi.heap.inst_lt hQ
        have hle := int32_le (n := Q.inst + 1) (by omega)
        rw [hs.id a Q hQ]
        omega

variable [DecidableEq P]

/-- A queue that is created gets the next id, and has its id from its instance. -/
theorem IdsOk.create (hs : IdsOk s) (p : P) (k : Int) (a : A) :
    IdsOk (({ s with page := Function.update s.page a (.queue ⟨s.listHead, s.nextId, k, none, none, s.insts⟩),
                     listHead := some a, nextId := int32 (s.nextId + 1), insts := s.insts + 1 } : MsgSt P A).ret p s.nextId) where
  nextId := by
    show int32 (s.nextId + 1) = int32 ((s.insts + 1 : Nat) + 1)
    rw [hs.nextId, int32_add, Int.natCast_add]
    rfl
  id b R hR := by
    by_cases hb : b = a
    · subst hb
      have hR' : (⟨s.listHead, s.nextId, k, none, none, s.insts⟩ : MsgQueue A) = R := by
        simpa [MsgSt.ret, MsgSt.setPc] using hR
      subst hR'
      exact hs.nextId
    · exact hs.id b R (by simpa [MsgSt.ret, MsgSt.setPc, hb] using hR)
  rets p' r hr := by
    have hle := int32_le (n := s.insts + 1) (by omega)
    simp only [MsgSt.ret, MsgSt.setPc, List.mem_append, List.mem_singleton, MsgEvent.ret.injEq] at hr ⊢
    rcases hr with hr | ⟨-, rfl⟩
    · have := hs.rets p' r hr
      push_cast
      omega
    · rw [hs.nextId]
      push_cast
      exact hle

/-- Every outcome keeps the ids in order. -/
theorem IdsOk.outcome (hs : IdsOk s) (hi : QueueInv s ql nl) (h : Outcome s ql nl act s' ql' nl') : IdsOk s' := by
  cases h with
  | quiet page listHead insts nextId fault pc refs calls log mute =>
    obtain ⟨l, hlog, hret⟩ := log
    refine hs.kept hi nextId insts (.of_eq fun b R hR => page ▸ hR) hlog fun p r hr => ?_
    exact hret _ hr
  | @create p key msgflg a k pc free => exact hs.create p k a
  | @fill p q c a junk pc free =>
    exact hs.kept hi rfl rfl (.of_update rfl) (List.append_nil _).symm fun _ _ hr => absurd hr List.not_mem_nil
  | @append p q f c h hd tl Q pc queue inst rel rep =>
    refine hs.kept (l := [.sent p q.inst c.msg, .ret p 0]) hi rfl rfl (.of_relinked rel) ?_ ?_
    · simp [MsgSt.ret, MsgSt.setPc, MsgSt.wakeup]
    · intro p' r hr
      simp only [List.mem_cons, reduceCtorEq, MsgEvent.ret.injEq, List.not_mem_nil, or_false, false_or] at hr
      exact .inl hr.2.le
  | @unlink p q c l₁ l₂ f n h hd tl Q pc queue inst split node wanted first rel rep =>
    refine hs.kept (l := [.took p q.inst c n.msg]) hi rfl rfl (.of_relinked rel) rfl ?_
    intro p' r hr
    simp at hr
  | @deliver p f c n beyond e pc node event =>
    refine hs.kept (l := [e]) hi rfl rfl (.of_update rfl) rfl fun p' r hr => ?_
    rw [List.mem_singleton, event] at hr
    split at hr
    · cases hr
      exact .inl (by decide)
    · cases hr
  | @unlist p msqid cmd a Q l₁ l₂ h head pc split queue rel rep =>
    exact hs.kept hi rfl rfl (.of_relisted rel) (List.append_nil _).symm fun _ _ hr => absurd hr List.not_mem_nil
  | @drain p q Q h pc queue inst freed rep =>
    exact hs.kept hi rfl rfl (.of_drain queue freed) (List.append_nil _).symm fun _ _ hr => absurd hr List.not_mem_nil
  | @free p q Q pc queue inst =>
    refine hs.kept (l := [.ret p 0]) hi rfl rfl (.of_update rfl) rfl fun p' r hr => ?_
    rw [List.mem_singleton] at hr
    cases hr
    exact .inl le_rfl
  | @env act a c act_eq node queue node' queue' =>
    exact hs.kept hi rfl rfl (.of_update queue') (List.append_nil _).symm fun _ _ hr => absurd hr List.not_mem_nil

/-! ## The registry -/

/-- The entry of the queue on a page. -/
def entryOf (h : A → Page A) (a : A) : Option (Entry Int A) := (queueAt h a).map fun q => ⟨q.inst, q.key, a⟩

omit [DecidableEq A] [DecidableEq P] in
/-- The entries stay as they are where no queue is made. -/
theorem entries_from (hi' : QueueInv s' ql' nl') (hq : QueuesFrom s.page s'.page) :
    ql'.filterMap (entryOf s'.page) = ql'.filterMap (entryOf s.page) := by
  refine List.filterMap_congr fun b hb => ?_
  obtain ⟨R, hR⟩ := hi'.heap.queueAt_of_mem hb
  obtain ⟨Q, hQ, hinst, -, hkey⟩ := hq b R hR
  simp [entryOf, hQ, hR, hinst, hkey]

/-- What becomes of the elements of a list when one of them is taken out. -/
theorem filter_filterMap_middle {α β : Type*} {f : α → Option β} {keep : β → Bool} {l₁ l₂ : List α} {a : α}
    (ha : ∀ y, f a = some y → keep y = false) (hl : ∀ b ∈ l₁ ++ l₂, ∀ y, f b = some y → keep y = true) :
    ((l₁ ++ a :: l₂).filterMap f).filter keep = (l₁ ++ l₂).filterMap f := by
  have hall : ∀ l : List α, (∀ b ∈ l, b ∈ l₁ ++ l₂) → (l.filterMap f).filter keep = l.filterMap f := by
    intro l hsub
    refine List.filter_eq_self.mpr fun y hy => ?_
    obtain ⟨b, hb, hfb⟩ := List.mem_filterMap.mp hy
    exact hl b (hsub b hb) y hfb
  rw [List.filterMap_append, List.filter_append, hall l₁ (fun b hb => List.mem_append_left _ hb), List.filterMap_append]
  congr 1
  cases hfa : f a with
  | none => rw [List.filterMap_cons_none hfa, hall l₂ (fun b hb => List.mem_append_right _ hb)]
  | some y =>
    rw [List.filterMap_cons_some hfa, List.filter_cons_of_neg (by simp [ha y hfa]),
      hall l₂ (fun b hb => List.mem_append_right _ hb)]

omit [DecidableEq P] [DecidableEq A] in
/-- The list has no queue twice. -/
theorem ne_of_split (hi : QueueInv s ql nl) {l₁ l₂ : List A} {b : A} (split : ql = l₁ ++ a :: l₂) (hb : b ∈ l₁ ++ l₂) : b ≠ a := by
  have hnd := hi.heap.list.nodup
  rw [split] at hnd
  have hal : a ∉ l₁ ++ l₂ := (List.nodup_cons.mp (List.nodup_middle.mp hnd)).1
  rintro rfl
  exact hal hb

variable [Fintype A]

omit [DecidableEq P] [DecidableEq A] in
/-- The registry, read off the list of the queues. -/
theorem queueRegistry_eq (hi : QueueInv s ql nl) : queueRegistry s = ⟨s.insts, ql.filterMap (entryOf s.page)⟩ := by
  rw [queueRegistry, hi.listed_eq]
  rfl

omit [DecidableEq P] [DecidableEq A] in
/-- A listed queue is registered. -/
theorem mem_entries (hi : QueueInv s ql nl) (ha : a ∈ ql) (hQ : queueAt s.page a = some Q) :
    (⟨Q.inst, Q.key, a⟩ : Entry Int A) ∈ (queueRegistry s).entries := by
  rw [queueRegistry_eq hi]
  exact List.mem_filterMap.mpr ⟨a, ha, by simp [entryOf, hQ]⟩

/-- `sys_msgget` puts a queue on a free page only under a key that no queue of the list has. -/
theorem key_absent (hi : QueueInv s ql nl) {p : P} {key msgflg : Arg} {page : Option A} {R : MsgQueue A}
    (h : sysMsgget s p key msgflg page = some s') (free : s.page a = .free) (hR : queueAt s'.page a = some R) :
    ∀ b ∈ ql, ∀ Q, queueAt s.page b = some Q → Q.key ≠ R.key := by
  -- the call has changed the page
  have hsame : s'.page = s.page → False := by
    intro he
    simp [he, queueAt, free] at hR
  unfold sysMsgget at h
  cases key with
  | none =>
    cases h
    exact (hsame rfl).elim
  | some key =>
    cases msgflg with
    | none =>
      cases h
      exact (hsame rfl).elim
    | some msgflg =>
      rcases hi.seekQueue (·.key == key) with ⟨l₁, a', l₂, Q, -, -, -, heq⟩ | ⟨hnone, heq⟩
      · simp only [heq, Option.some.injEq] at h
        subst h
        exact (hsame rfl).elim
      · simp only [heq] at h
        split at h
        · cases h
          exact (hsame rfl).elim
        · cases page with
          | none =>
            cases h
            exact (hsame rfl).elim
          | some a' =>
            cases hfree : s.page a' with
            | free =>
              simp only [hfree, Option.some.injEq] at h
              subst h
              have ha : a = a' := by
                by_contra hne
                simp [MsgSt.ret, MsgSt.setPc, queueAt, hne, free] at hR
              subst ha
              have hkey : R.key = key := by
                simp only [MsgSt.ret, MsgSt.setPc, queueAt_update, ↓reduceIte, queue?_queue, Option.some.injEq] at hR
                rw [← hR]
              intro b hb Q hQ he
              have := hnone b hb Q hQ
              simp [he, hkey] at this
            | _ => simp [hfree] at h

/-- A queue that is created under a new key enters the registry. -/
theorem registry_enter (hi : QueueInv s ql nl) {k : Int} (free : s.page a = .free)
    (habs : ∀ b ∈ ql, ∀ Q, queueAt s.page b = some Q → Q.key ≠ k) :
    (⟨s.insts, ql.filterMap (entryOf s.page)⟩ : Registry Int A).step (.enter k a) = some ⟨s.insts + 1,
      (a :: ql).filterMap (entryOf (Function.update s.page a (.queue ⟨s.listHead, s.nextId, k, none, none, s.insts⟩)))⟩ := by
  have hnew : entryOf (Function.update s.page a (.queue ⟨s.listHead, s.nextId, k, none, none, s.insts⟩)) a =
      some ⟨s.insts, k, a⟩ := by simp [entryOf]
  have hold : ∀ b ∈ ql, entryOf (Function.update s.page a (.queue ⟨s.listHead, s.nextId, k, none, none, s.insts⟩)) b =
      entryOf s.page b := by
    intro b hb
    have hba : b ≠ a := by
      rintro rfl
      obtain ⟨Q, hQ⟩ := hi.heap.queueAt_of_mem hb
      simp [queueAt, free] at hQ
    simp [entryOf, hba]
  rw [Registry.step, if_neg]
  · rw [List.filterMap_cons_some hnew, List.filterMap_congr hold]
  · intro hmem
    obtain ⟨e, he, hk⟩ := List.mem_map.mp hmem
    obtain ⟨b, hb, hbe⟩ := List.mem_filterMap.mp he
    obtain ⟨Q, hQ, rfl⟩ := Option.map_eq_some_iff.mp hbe
    exact habs b hb Q hQ hk

/-- A queue that is taken off the list leaves the registry. -/
theorem registry_leave (hi : QueueInv s ql nl) {l₁ l₂ : List A} (split : ql = l₁ ++ a :: l₂) (queue : queueAt s.page a = some Q) :
    (⟨s.insts, ql.filterMap (entryOf s.page)⟩ : Registry Int A).step (.leave Q.inst) =
      some ⟨s.insts, (l₁ ++ l₂).filterMap (entryOf s.page)⟩ := by
  rw [Registry.step]
  congr 2
  rw [split]
  refine filter_filterMap_middle (fun e he => ?_) fun b hb e he => ?_
  · obtain ⟨R, hR, rfl⟩ := Option.map_eq_some_iff.mp he
    rw [queue] at hR
    cases hR
    simp
  · obtain ⟨R, hR, rfl⟩ := Option.map_eq_some_iff.mp he
    have hba : b ≠ a := ne_of_split hi split hb
    have hinst : R.inst ≠ Q.inst := fun he => hba (hi.heap.inst_inj hR queue he)
    simpa using hinst

/-- Every step is a step of the registry, or leaves it as it is. -/
theorem queueRegistry_step (hi : QueueInv s ql nl) (h : msgStep s act = some s') :
    queueRegistry s' = queueRegistry s ∨ ∃ b, (queueRegistry s).step b = some (queueRegistry s') := by
  rcases hi.step_outcome h with ⟨ql', nl', hout⟩ | ⟨⟨f, rfl⟩, -⟩
  on_goal 2 => exact .inl rfl
  have hi' := hi.outcome hout
  have hsame : ql' = ql → s'.insts = s.insts → QueuesFrom s.page s'.page → queueRegistry s' = queueRegistry s := by
    rintro rfl hinsts hq
    rw [queueRegistry_eq hi, queueRegistry_eq hi', hinsts, entries_from hi' hq]
  cases hout with
  | quiet page listHead insts nextId fault pc refs calls log mute =>
    exact .inl (hsame rfl insts (.of_eq fun b R hR => page ▸ hR))
  | @create p key msgflg a k pc free =>
    have habs : ∀ b ∈ ql, ∀ Q, queueAt s.page b = some Q → Q.key ≠ k := by
      cases (msgMoves_of_msgStep h).2 with
      | get _ hget =>
        exact key_absent (R := ⟨s.listHead, s.nextId, k, none, none, s.insts⟩) hi hget free (by simp [MsgSt.ret, MsgSt.setPc])
    refine .inr ⟨.enter k a, ?_⟩
    rw [queueRegistry_eq hi', queueRegistry_eq hi]
    exact registry_enter hi free habs
  | fill pc free | deliver pc node event | free pc queue inst => exact .inl (hsame rfl rfl (.of_update rfl))
  | append pc queue inst rel rep | unlink pc queue inst split node wanted first rel rep =>
    exact .inl (hsame rfl rfl (.of_relinked rel))
  | @unlist p msqid cmd a Q l₁ l₂ h head pc split queue rel rep =>
    refine .inr ⟨.leave Q.inst, ?_⟩
    rw [queueRegistry_eq hi', queueRegistry_eq hi, entries_from hi' (.of_relisted rel)]
    exact registry_leave hi split queue
  | drain pc queue inst freed rep => exact .inl (hsame rfl rfl (.of_drain queue freed))
  | env act_eq node queue node' queue' => exact .inl (hsame rfl rfl (.of_update queue'))

/-! ## The listing -/

/-- The row of the queue on a page. -/
def rowOf (s : MsgSt P A) (a : A) : Option (QueueRow A) := (queueAt s.page a).map fun q => ⟨a, q.id, q.key, messages s a⟩

omit [DecidableEq P] [DecidableEq A] in
theorem listing_eq (hi : QueueInv s ql nl) : listing s = ql.filterMap (rowOf s) := by
  rw [listing, hi.listed_eq]
  rfl

omit [DecidableEq P] [DecidableEq A] in
/-- The rows are the listed queues, with their messages. -/
theorem mem_listing (hi : QueueInv s ql nl) {r : QueueRow A} :
    r ∈ listing s ↔ ∃ a ∈ ql, ∃ Q, queueAt s.page a = some Q ∧ r = ⟨a, Q.id, Q.key, messages s a⟩ := by
  rw [listing_eq hi, List.mem_filterMap]
  simp only [rowOf, Option.map_eq_some_iff]
  constructor
  · rintro ⟨a, ha, Q, hQ, rfl⟩
    exact ⟨a, ha, Q, hQ, rfl⟩
  · rintro ⟨a, ha, Q, hQ, rfl⟩
    exact ⟨a, ha, Q, hQ, rfl⟩

omit [DecidableEq P] [DecidableEq A] in
/-- A list of queues that were there before, with the messages that they had. -/
theorem listing_from (hi' : QueueInv s' ql' nl') (hq : QueuesFrom s.page s'.page)
    (hm : ∀ b ∈ ql', messages s' b = messages s b) : listing s' = ql'.filterMap (rowOf s) := by
  rw [listing_eq hi']
  refine List.filterMap_congr fun b hb => ?_
  obtain ⟨R, hR⟩ := hi'.heap.queueAt_of_mem hb
  obtain ⟨Q, hQ, -, hid, hkey⟩ := hq b R hR
  simp [rowOf, hQ, hR, hid, hkey, hm b hb]

omit [DecidableEq P] [DecidableEq A] in
theorem listing_keys : (listing s).map QueueRow.key = (queueRegistry s).entries.map Entry.key := by
  simp only [listing, queueRegistry, List.map_filterMap, Option.map_map]
  rfl

omit [DecidableEq P] [DecidableEq A] in
/-- The ids come from the numbers. -/
theorem listing_ids {g : Nat → Int} (hg : ∀ a Q, queueAt s.page a = some Q → Q.id = g Q.inst) :
    (listing s).map QueueRow.id = (queueRegistry s).entries.map fun e => g e.num := by
  simp only [listing, queueRegistry, List.map_filterMap, Option.map_map]
  refine List.filterMap_congr fun a _ => ?_
  cases hQ : queueAt s.page a with
  | none => rfl
  | some Q => simp [hg a Q hQ]

/-- Ids are distinct while their numbers fit an `int`. -/
theorem int32_injOn {m n N : Nat} (hm : m < N) (hn : n < N) (hN : N + 1 < 2 ^ 31) (h : int32 (m + 1) = int32 (n + 1)) : m = n := by
  rw [int32_of_lt (by omega) (by omega), int32_of_lt (by omega) (by omega)] at h
  omega

omit [DecidableEq P] in
/-- The boxes say what is in the queues. -/
theorem messages_of_mailView (hi : QueueInv s ql nl) (hi' : QueueInv s' ql' nl') {b : A} (hb : b ∈ ql) (hb' : b ∈ ql')
    (h : mailView s' b = mailView s b) : messages s' b = messages s b := by
  obtain ⟨Q, hQ⟩ := hi.heap.queueAt_of_mem hb
  obtain ⟨R, hR⟩ := hi'.heap.queueAt_of_mem hb'
  rw [hi.mailView_of_mem hb hQ, hi'.mailView_of_mem hb' hR, Option.some.injEq, Box.mk.injEq] at h
  exact h.1

/-! ## Runs -/

/-- What holds in every state of a run that keeps queues in place while they are in use. -/
structure Good (s : MsgSt P A) : Prop where
  queues : ∃ ql nl, QueueInv s ql nl
  safe : SafeInv s
  fresh : LogFresh s
  ids : IdsOk s

theorem Good.step (hs : Good s) (hok : LifetimeOk s act) (h : spillStep M s act = some s') : Good s' := by
  rw [spillStep_of_sized M hs.safe.sized] at h
  obtain ⟨ql, nl, hi⟩ := hs.queues
  obtain ⟨ql', nl', hout⟩ := hi.safe_outcome hs.safe h
  exact ⟨⟨ql', nl', hi.outcome hout⟩, hs.safe.outcome hi hok hout, hi.logFresh hs.fresh hout, hs.ids.outcome hi hout⟩

theorem good_of_reach (hs : (spillSys M).Reach LifetimeOk s) : Good s := by
  refine Sys.Reach.invariant (I := Good) (fun s hb => ?_) (fun s act s' hs hok h => hs.step hok h) hs
  refine ⟨⟨[], fun _ => [], .boot hb⟩, .boot hb, ?_, .boot hb⟩
  intro i _
  simp [hb.log, sentTo, takenFrom]

/-- Each step is one of the registry, or none. -/
theorem Good.registry_step (hs : Good s) (h : spillStep M s act = some s') :
    queueRegistry s' = queueRegistry s ∨ ∃ b, True ∧ (queueRegistry s).step b = some (queueRegistry s') := by
  rw [spillStep_of_sized M hs.safe.sized] at h
  obtain ⟨ql, nl, hi⟩ := hs.queues
  rcases queueRegistry_step hi h with he | ⟨b, hb⟩
  · exact .inl he
  · exact .inr ⟨b, trivial, hb⟩

/-- The list of queues is a registry, in every state. -/
theorem registry_reachable (hs : (spillSys M).Reach LifetimeOk s) : Registry.sys.Reachable (queueRegistry s) := by
  refine Sys.Reach.simulate (T := Registry.sys) (J := Good) (f := queueRegistry) (fun s => good_of_reach) (fun s hb => ?_)
    (fun s act s' hs _ h => hs.registry_step h) hs
  rw [queueRegistry_eq (.boot hb)]
  exact ⟨hb.insts, rfl⟩

/-- And it goes on as one from every state. -/
theorem registry_after {t : MsgSt P A} (ht : (spillSys M).Reach LifetimeOk t) (hs : ((spillSys M).after t).Reach LifetimeOk s) :
    (Registry.sys.after (queueRegistry t)).Reachable (queueRegistry s) := by
  refine Sys.Reach.simulate (T := Registry.sys.after (queueRegistry t)) (J := Good) (f := queueRegistry)
    (fun s h => good_of_reach (ht.after h)) (fun s hb => ?_) (fun s act s' hs _ h => hs.registry_step h) hs
  exact congrArg queueRegistry hb

end QueueIdAux

end OsLab
