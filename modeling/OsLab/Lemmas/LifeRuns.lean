import OsLab.Lemmas.Life

/-!
# What holds over whole lives

The runs of the process calls are runs of `lifeSys` (`view_reach`) and these are runs of the family (`forest_reachable`), so
the invariant of the family is there to build on. `LifeInv` adds what the family does not know: which pid an instance has,
that whoever can run or be reaped has a kernel stack and a page directory of its own, and that what is freed belonged to the
instance that ended. `KillInv` is about who is marked as killed.
-/

namespace OsLab

open Function (update update_of_ne)

namespace LifeAux

variable {okL : LifeSt → LifeAct → Prop} {v v' : LifeSt} {b : LifeAct} {i p : Slot} {log : List ProcEvent}

/-- The places are in order in every run. -/
theorem pcOk_of_reach {A : KernelAddrs} {ok : ProcSt → ProcAct → Prop} (hsub : ∀ s a, ok s a → UserWaitx s a) {s : ProcSt}
    (h : (procSys A).Reach ok s) : PcOk s := by
  refine Sys.Reach.invariant (I := PcOk) ?_ (fun t a t' hI hok hst => hI.step (hsub t a hok) hst) h
  rintro t ⟨k, d, rfl⟩
  constructor
  · intro p w hw
    cases hw
  · intro p hp
    cases hp

/-- A run of the process calls, from a distance. -/
theorem view_reach {A : KernelAddrs} {ok : ProcSt → ProcAct → Prop} (hsub : ∀ s a, ok s a → UserWaitx s a)
    (hcomes : ∀ s a b, ok s a → Comes s a b → okL (view s) b) {s : ProcSt} (h : (procSys A).Reach ok s) : lifeSys.Reach okL (view s) := by
  refine Sys.Reach.simulate (J := PcOk) (f := view) (fun t ht => pcOk_of_reach hsub ht) ?_ ?_ h
  · rintro t ⟨k, d, rfl⟩
    exact ⟨k, d, rfl⟩
  · intro t a t' hJ hok hst
    rcases procStep_view hJ (hsub t a hok) hst with he | ⟨b, hb, hst⟩
    · exact Or.inl he
    · exact Or.inr ⟨b, hcomes t a b hok hb, hst⟩

/-- What the processes make, after one has moved. -/
theorem making_update (f : Slot → Place) (p : Slot) (c : Place) :
    (fun q => (update f p c q).making) = update (fun q => (f q).making) p c.making := by
  funext q
  by_cases hq : q = p
  · subst hq
    simp
  · simp [hq]

/-- A field of the lives, after one has changed. -/
theorem field_update {β : Type*} (g : Life → β) (f : Slot → Life) (i : Slot) (x : Life) :
    (fun j => g (update f i x j)) = update (fun j => g (f j)) i (g x) := by
  funext j
  by_cases hj : j = i
  · subst hj
    simp
  · simp [hj]

/-- The family after a change of one slot and a move of one process. -/
theorem forest_set (v : LifeSt) (i : Slot) (x : Life) (p : Slot) (c : Place) (es : List ProcEvent) :
    forest (v.set i x p c es) =
      { forest v with
        phase := update (forest v).phase i x.phase
        parent := update (forest v).parent i x.parent
        making := update (forest v).making p c.making
        ended := endedInsts (es ++ v.log) } :=
  Forest.ext rfl (field_update Life.phase v.life i x) (field_update Life.parent v.life i x) (making_update v.place p c)
    rfl rfl rfl

/-- Every step of a life is a step of the family, or leaves it alone. -/
theorem forest_step (h : v.step b = some v') : forest v' = forest v ∨ ∃ c, (forest v).step c = some (forest v') := by
  have hphase : ∀ i, update (forest v).phase i (v.life i).phase = (forest v).phase :=
    fun i => Function.update_eq_self i _
  have hparent : ∀ i, update (forest v).parent i (v.life i).parent = (forest v).parent :=
    fun i => Function.update_eq_self i _
  have hmaking : ∀ {p : Slot} {m : Making Slot}, (forest v).making p = m →
      update (forest v).making p m = (forest v).making := by
    rintro p m rfl
    exact Function.update_eq_self p _
  cases b with
  | killMiss pid =>
    cases h
    exact Or.inl rfl
  | kill pid i =>
    obtain ⟨-, rfl⟩ := of_guard h
    exact Or.inl (Forest.ext rfl ((field_update Life.phase v.life i _).trans (hphase i))
      ((field_update Life.parent v.life i _).trans (hparent i)) rfl rfl rfl rfl)
  | fault p =>
    obtain ⟨-, rfl⟩ := of_guard h
    exact Or.inl (Forest.ext rfl ((field_update Life.phase v.life p _).trans (hphase p))
      ((field_update Life.parent v.life p _).trans (hparent p)) rfl rfl rfl rfl)
  | claim p i =>
    obtain ⟨⟨hlive, hidle, hfree⟩, rfl⟩ := of_guard h
    have hidle : (forest v).making p = .idle := by simp [forest, hidle, Place.making]
    refine Or.inr ⟨.claim p i, (if_pos ⟨hlive, hidle, hfree⟩).trans (congrArg some ?_)⟩
    exact Forest.ext rfl (field_update Life.phase v.life i { v.life i with phase := .embryo, pid := v.nextpid }).symm
      ((field_update Life.parent v.life i { v.life i with phase := .embryo, pid := v.nextpid }).trans (hparent i)).symm
      (making_update v.place p (.stack i)).symm rfl rfl rfl
  | noStack p i =>
    obtain ⟨hplace, rfl⟩ := of_guard h
    have hbare : (forest v).making p = .bare i := by simp [forest, hplace, Place.making]
    refine Or.inr ⟨.abandon p i, (if_pos hbare).trans (congrArg some ?_)⟩
    rw [forest_set, hparent]
    rfl
  | stack p i f =>
    obtain ⟨hplace, rfl⟩ := of_guard h
    have hbare : (forest v).making p = (Place.copy i).making := by simp [forest, hplace, Place.making]
    left
    rw [forest_set, hphase, hparent, hmaking hbare]
    rfl
  | noSpace p i f =>
    obtain ⟨⟨hplace, -⟩, rfl⟩ := of_guard h
    have hbare : (forest v).making p = .bare i := by simp [forest, hplace, Place.making]
    refine Or.inr ⟨.abandon p i, (if_pos hbare).trans (congrArg some ?_)⟩
    rw [forest_set, hparent]
    rfl
  | space p i d =>
    obtain ⟨hplace, rfl⟩ := of_guard h
    have hbare : (forest v).making p = .bare i := by simp [forest, hplace, Place.making]
    refine Or.inr ⟨.adopt p i, (if_pos hbare).trans (congrArg some ?_)⟩
    rw [forest_set, hphase]
    rfl
  | publish p i =>
    obtain ⟨hplace, rfl⟩ := of_guard h
    have hadopted : (forest v).making p = .adopted i := by simp [forest, hplace, Place.making]
    refine Or.inr ⟨.publish p i, (if_pos hadopted).trans (congrArg some ?_)⟩
    rw [forest_set, hparent]
    rfl
  | exit p =>
    obtain ⟨⟨hne, hlive, hidle⟩, rfl⟩ := of_guard h
    have hidle : (forest v).making p = .idle := by simp [forest, hidle, Place.making]
    refine Or.inr ⟨.exit p, (if_pos ⟨hne, hlive, hidle⟩).trans (congrArg some ?_)⟩
    refine Forest.ext rfl (funext fun i => ?_) rfl rfl rfl rfl rfl
    by_cases hi : i = p <;> simp [forest, hi]
  | reap cur w i f d =>
    obtain ⟨⟨hz, hpar, -, -, -, hidle⟩, rfl⟩ := of_guard h
    have hidle : (forest v).making cur = Place.idle.making := by simp [forest, hidle]
    refine Or.inr ⟨.reap cur i, (if_pos ⟨hz, hpar⟩).trans (congrArg some ?_)⟩
    rw [forest_set, hmaking hidle]
    rfl

/-- The life of init after `userinit`. -/
def initLife (k d : Frame) : Life :=
  { phase := .live, parent := none, pid := 1, kstack := some k, pgdir := some d, killed := 0 }

theorem life_userinit (k d : Frame) : (userinit k d).life = update (fun _ => Proc.zero.life) 0 (initLife k d) := by
  funext i
  by_cases hi : i = 0
  · subst hi
    rfl
  · simp [Table.life, userinit, forkPublish, allocprocStack, allocprocFound, Table.modify, Table.zero, hi]

/-- The lives make up a family. -/
theorem forest_reachable (h : lifeSys.Reach okL v) : (Forest.sys Slot).Reachable (forest v) := by
  refine Sys.Reach.simulate (J := fun _ => True) (f := forest) (fun _ _ => trivial) ?_ ?_ h
  · rintro t ⟨k, d, rfl⟩
    have hlife : (lifeBoot k d).life = _ := life_userinit k d
    refine ⟨?_, ?_, rfl, rfl, rfl, rfl⟩
    · simp only [forest, hlife]
      exact field_update Life.phase _ 0 _
    · simp only [forest, hlife]
      exact (field_update Life.parent _ 0 _).trans (Function.update_eq_self (0 : Slot) _)
  · intro v b v' _ _ hst
    rcases forest_step hst with he | ⟨c, hc⟩
    · exact Or.inl he
    · exact Or.inr ⟨c, trivial, hc⟩

/-- The processes of every run form a forest. -/
theorem forest_inv (h : lifeSys.Reach okL v) : (forest v).Inv :=
  Forest.inv_of_reachable (forest_reachable h)

/-! ## Pids, kernel stacks and page directories -/

/-- The slot has a kernel stack and a page directory, and by the record its instance was given them. -/
def Owns (v : LifeSt) (i : Slot) : Prop :=
  ∃ f d, (v.life i).kstack = some f ∧ (v.life i).pgdir = some d ∧ .stack (v.inst i) f ∈ v.log ∧ .space (v.inst i) d ∈ v.log

/-- What is owned stays owned while the slot keeps it and the record grows. -/
theorem Owns.mono (h : Owns v i) (hk : (v'.life i).kstack = (v.life i).kstack) (hd : (v'.life i).pgdir = (v.life i).pgdir)
    (hi : v'.inst i = v.inst i) (hlog : v.log ⊆ v'.log) : Owns v' i := by
  obtain ⟨f, d, hf, hd', hs, hsp⟩ := h
  exact ⟨f, d, hk.trans hf, hd.trans hd', hi ▸ hlog hs, hi ▸ hlog hsp⟩

/-- What the record says of stacks and page directories that were freed, and of the instances that ended. -/
structure FreedInv (log : List ProcEvent) : Prop where
  /-- What is freed is freed when the instance ends. -/
  stackEnds : ((kfrees log).map Prod.fst).Sublist (endedInsts log)
  spaceEnds : ((freevms log).map Prod.fst).Sublist (endedInsts log)
  reapEnds : (reapedInsts log).Sublist (endedInsts log)
  /-- A reaped instance has had its own stack and page directory freed. -/
  freed : ∀ n ∈ reapedInsts log, ∃ f d, (n, f) ∈ kfrees log ∧ .stack n f ∈ log ∧
    (n, d) ∈ freevms log ∧ .space n d ∈ log

/-- An event that neither frees nor ends anything. -/
theorem FreedInv.cons (h : FreedInv log) {e : ProcEvent} (hk : kfrees (e :: log) = kfrees log) (hd : freevms (e :: log) = freevms log)
    (hr : reapedInsts (e :: log) = reapedInsts log) (he : endedInsts (e :: log) = endedInsts log) : FreedInv (e :: log) := by
  refine ⟨by rw [hk, he]; exact h.stackEnds, by rw [hd, he]; exact h.spaceEnds, by rw [hr, he]; exact h.reapEnds, ?_⟩
  rw [hr, hk, hd]
  intro n hn
  obtain ⟨f, d, h1, h2, h3, h4⟩ := h.freed n hn
  exact ⟨f, d, h1, List.mem_cons_of_mem _ h2, h3, List.mem_cons_of_mem _ h4⟩

/-- A fork that gives up without a stack. -/
theorem FreedInv.failed (h : FreedInv log) (n : Nat) : FreedInv (.failed n :: log) := by
  refine ⟨h.stackEnds.trans (List.sublist_cons_self n _), h.spaceEnds.trans (List.sublist_cons_self n _),
    h.reapEnds.trans (List.sublist_cons_self n _), fun m hm => ?_⟩
  obtain ⟨f, d, h1, h2, h3, h4⟩ := h.freed m hm
  exact ⟨f, d, h1, List.mem_cons_of_mem _ h2, h3, List.mem_cons_of_mem _ h4⟩

/-- A fork that gives up and frees the stack. -/
theorem FreedInv.failed_kfree (h : FreedInv log) (n : Nat) (f : Frame) : FreedInv (.failed n :: .kfree n f :: log) := by
  refine ⟨h.stackEnds.cons_cons n, h.spaceEnds.trans (List.sublist_cons_self n _),
    h.reapEnds.trans (List.sublist_cons_self n _), fun m hm => ?_⟩
  obtain ⟨f', d, h1, h2, h3, h4⟩ := h.freed m hm
  exact ⟨f', d, List.mem_cons_of_mem _ h1, by simp [h2], h3, by simp [h4]⟩

/-- A wait that reaps. -/
theorem FreedInv.reap (h : FreedInv log) (cur : Slot) (w : WaitCall) (i : Slot) (n : Nat) (r : Int) {f d : Frame} (hf : .stack n f ∈ log)
    (hd : .space n d ∈ log) : FreedInv (.reaped cur w i n r :: .freevm n d :: .kfree n f :: log) := by
  refine ⟨h.stackEnds.cons_cons n, h.spaceEnds.cons_cons n, h.reapEnds.cons_cons n, fun m hm => ?_⟩
  rcases List.mem_cons.mp hm with rfl | hm
  · exact ⟨f, d, List.mem_cons_self, by simp [hf], List.mem_cons_self, by simp [hd]⟩
  · obtain ⟨f', d', h1, h2, h3, h4⟩ := h.freed m hm
    exact ⟨f', d', List.mem_cons_of_mem _ h1, by simp [h2], List.mem_cons_of_mem _ h3, by simp [h4]⟩

/-- What the family does not know of the lives. -/
structure LifeInv (v : LifeSt) : Prop where
  /-- The pids are handed out in order. -/
  pid : ∀ i, (v.life i).phase ≠ .free → (v.life i).pid = int32 (v.inst i + 1)
  nextpid : v.nextpid = int32 (v.allocs + 1)
  /-- A child has the stack when the copy begins, and everything when it is published and after. -/
  copyStack : ∀ p i, v.place p = .copy i → ∃ f, (v.life i).kstack = some f ∧ .stack (v.inst i) f ∈ v.log
  publishOwns : ∀ p i, v.place p = .publish i → Owns v i
  owns : ∀ i, (v.life i).phase = .live ∨ (v.life i).phase = .zombie → Owns v i
  freed : FreedInv v.log

theorem LifeInv.init (k d : Frame) : LifeInv (lifeBoot k d) := by
  have hlife : (lifeBoot k d).life = _ := life_userinit k d
  have hzero : ∀ i, i ≠ 0 → ((lifeBoot k d).life i).phase = .free := by
    intro i hi
    rw [hlife, update_of_ne hi]
    rfl
  have hnext : (lifeBoot k d).nextpid = int32 (1 + 1) := rfl
  refine ⟨fun i hi => ?_, hnext.trans (show _ = int32 ((1 : Nat) + 1) by decide), ?_, ?_, fun i hi => ?_, ?_⟩
  · by_cases h0 : i = 0
    · subst h0
      have hpid : ((lifeBoot k d).life 0).pid = 1 := rfl
      exact hpid.trans (show _ = int32 ((0 : Nat) + 1) by decide)
    · exact absurd (hzero i h0) hi
  · rintro p i ⟨⟩
  · rintro p i ⟨⟩
  · by_cases h0 : i = 0
    · subst h0
      exact ⟨k, d, rfl, rfl, by simp [lifeBoot, view, ProcSt.boot], by simp [lifeBoot, view, ProcSt.boot]⟩
    · simp [hzero i h0] at hi
  · exact ⟨List.Sublist.refl _, List.Sublist.refl _, List.Sublist.refl _, fun n hn => by cases hn⟩

/-- Who makes a slot is in `fork`. -/
theorem makes_iff : (forest v).Makes p i ↔ v.place p = .stack i ∨ v.place p = .copy i ∨ v.place p = .publish i := by
  unfold Forest.Makes
  cases h : v.place p <;> simp [forest, h, Place.making]

/-- A change of one slot, by the process that makes it or of a slot that nobody makes, and a move of that process. -/
theorem LifeInv.set (hI : LifeInv v) {x : Life} {c : Place} {es : List ProcEvent} (hother : ∀ q, q ≠ p → ¬ (forest v).Makes q i)
    (hpid : x.phase ≠ .free → x.pid = int32 (v.inst i + 1))
    (hcopy : ∀ j, c = .copy j → j = i ∧ ∃ f, x.kstack = some f ∧ .stack (v.inst i) f ∈ es ++ v.log)
    (hpub : ∀ j, c = .publish j → j = i ∧ Owns (v.set i x p c es) i)
    (howns : x.phase = .live ∨ x.phase = .zombie → Owns (v.set i x p c es) i) (hfreed : FreedInv (es ++ v.log)) :
    LifeInv (v.set i x p c es) := by
  have hlog : v.log ⊆ (v.set i x p c es).log := List.subset_append_right es v.log
  have hself : (v.set i x p c es).life i = x := by simp [LifeSt.set]
  have hne : ∀ j, j ≠ i → (v.set i x p c es).life j = v.life j := fun j hj => by simp [LifeSt.set, hj]
  have hkeep : ∀ j, j ≠ i → Owns v j → Owns (v.set i x p c es) j :=
    fun j hj h => h.mono (by rw [hne j hj]) (by rw [hne j hj]) rfl hlog
  have hplace : ∀ q, (v.set i x p c es).place q = if q = p then c else v.place q := fun q => Function.update_apply ..
  refine ⟨fun j hj => ?_, hI.nextpid, fun q j hq => ?_, fun q j hq => ?_, fun j hj => ?_, hfreed⟩
  · by_cases hji : j = i
    · subst hji
      rw [hself] at hj ⊢
      exact hpid hj
    · rw [hne j hji] at hj ⊢
      exact hI.pid j hj
  · rw [hplace] at hq
    split at hq
    · obtain ⟨rfl, f, hf, hs⟩ := hcopy j hq
      exact ⟨f, hself.symm ▸ hf, hs⟩
    · rename_i hqp
      have hji : j ≠ i := fun h => hother q hqp (makes_iff.mpr (Or.inr (Or.inl (h ▸ hq))))
      obtain ⟨f, hf, hs⟩ := hI.copyStack q j hq
      exact ⟨f, (hne j hji).symm ▸ hf, hlog hs⟩
  · rw [hplace] at hq
    split at hq
    · obtain ⟨rfl, ho⟩ := hpub j hq
      exact ho
    · rename_i hqp
      have hji : j ≠ i := fun h => hother q hqp (makes_iff.mpr (Or.inr (Or.inr (h ▸ hq))))
      exact hkeep j hji (hI.publishOwns q j hq)
  · by_cases hji : j = i
    · subst hji
      rw [hself] at hj
      exact howns hj
    · rw [hne j hji] at hj
      exact hkeep j hji (hI.owns j hj)

/-- A change that none of the fields it speaks of shows, with a call of `kill` on the record. -/
theorem LifeInv.same (hI : LifeInv v)
    (hphase : ∀ i, (v'.life i).phase = (v.life i).phase ∨ ((v.life i).phase = .live ∧ (v'.life i).phase = .zombie))
    (hpid : ∀ i, (v'.life i).pid = (v.life i).pid) (hk : ∀ i, (v'.life i).kstack = (v.life i).kstack)
    (hd : ∀ i, (v'.life i).pgdir = (v.life i).pgdir) (hnext : v'.nextpid = v.nextpid) (hplace : v'.place = v.place)
    (hinst : v'.inst = v.inst) (hallocs : v'.allocs = v.allocs) (hlog : v'.log = v.log ∨ ∃ n, v'.log = .killCall n :: v.log) :
    LifeInv v' := by
  have hsub : v.log ⊆ v'.log := by
    rcases hlog with h | ⟨n, h⟩ <;> rw [h]
    · exact List.Subset.refl _
    · exact List.subset_cons_self _ _
  have hkeep : ∀ j, Owns v j → Owns v' j := fun j h => h.mono (hk j) (hd j) (by rw [hinst]) hsub
  refine ⟨fun i hi => ?_, by rw [hnext, hallocs]; exact hI.nextpid, fun q j hq => ?_, fun q j hq => ?_, fun j hj => ?_, ?_⟩
  · rw [hpid, hinst]
    refine hI.pid i fun h => hi ?_
    rcases hphase i with he | ⟨he, -⟩
    · rw [he, h]
    · rw [h] at he
      cases he
  · obtain ⟨f, hf, hs⟩ := hI.copyStack q j (hplace ▸ hq)
    exact ⟨f, (hk j).trans hf, hinst ▸ hsub hs⟩
  · exact hkeep j (hI.publishOwns q j (hplace ▸ hq))
  · refine hkeep j (hI.owns j ?_)
    rcases hphase j with he | ⟨he, -⟩
    · rwa [he] at hj
    · exact Or.inl he
  · rcases hlog with h | ⟨n, h⟩ <;> rw [h]
    · exact hI.freed
    · exact hI.freed.cons rfl rfl rfl rfl

/-- A claim: the slot was free, so nobody had a use for what it held. -/
theorem LifeInv.claim {v v' : LifeSt} {p i : Slot} (hF : (forest v).Inv) (hI : LifeInv v)
    (h : v.step (.claim p i) = some v') : LifeInv v' := by
  obtain ⟨⟨-, -, hfree⟩, rfl⟩ := of_guard h
  have hnot : ∀ q, ¬ (forest v).Makes q i := by
    intro q hq
    have := (hF.makesLive q i hq).2.1
    simp [forest, hfree] at this
  generalize hv : ({ v.set i { v.life i with phase := .embryo, pid := v.nextpid } p (.stack i)
      [.born v.allocs v.nextpid] with
      nextpid := int32 (v.nextpid + 1)
      inst := update v.inst i v.allocs
      allocs := v.allocs + 1 } : LifeSt) = v'
  have hlife : ∀ j, j ≠ i → v'.life j = v.life j := fun j hj => by simp [← hv, LifeSt.set, hj]
  have hinst : ∀ j, j ≠ i → v'.inst j = v.inst j := fun j hj => by simp [← hv, hj]
  have hplace : ∀ q, v'.place q = if q = p then .stack i else v.place q := fun q => by
    simp [← hv, LifeSt.set, Function.update_apply]
  have hlog : v.log ⊆ v'.log := by
    rw [← hv]
    exact List.subset_cons_self _ _
  have hkeep : ∀ j, j ≠ i → Owns v j → Owns v' j :=
    fun j hj h => h.mono (by rw [hlife j hj]) (by rw [hlife j hj]) (hinst j hj) hlog
  refine ⟨fun j hj => ?_, ?_, fun q j hq => ?_, fun q j hq => ?_, fun j hj => ?_, ?_⟩
  · by_cases hji : j = i
    · subst hji
      simp [← hv, LifeSt.set, hI.nextpid]
    · rw [hlife j hji] at hj ⊢
      rw [hinst j hji]
      exact hI.pid j hj
  · rw [← hv]
    simp [hI.nextpid, int32_add]
  · rw [hplace] at hq
    split at hq
    · cases hq
    · have hji : j ≠ i := fun h => hnot q (makes_iff.mpr (Or.inr (Or.inl (h ▸ hq))))
      obtain ⟨f, hf, hs⟩ := hI.copyStack q j hq
      exact ⟨f, (hlife j hji).symm ▸ hf, (hinst j hji).symm ▸ hlog hs⟩
  · rw [hplace] at hq
    split at hq
    · cases hq
    · have hji : j ≠ i := fun h => hnot q (makes_iff.mpr (Or.inr (Or.inr (h ▸ hq))))
      exact hkeep j hji (hI.publishOwns q j hq)
  · by_cases hji : j = i
    · subst hji
      simp [← hv, LifeSt.set] at hj
    · exact hkeep j hji (hI.owns j (by rwa [hlife j hji] at hj))
  · rw [← hv]
    exact hI.freed.cons rfl rfl rfl rfl

/-- Every step keeps the invariant. -/
theorem LifeInv.step (hF : (forest v).Inv) (hI : LifeInv v) (h : v.step b = some v') :
    LifeInv v' := by
  have hmaker : ∀ {p i : Slot}, (forest v).Makes p i → ∀ q, q ≠ p → ¬ (forest v).Makes q i :=
    fun hp q hqp hq => hqp (hF.makesInj q _ _ hq hp)
  have hpidOf : ∀ {p i : Slot}, (forest v).Makes p i → (v.life i).pid = int32 (v.inst i + 1) := by
    intro p i hp
    have hembryo : (v.life i).phase = .embryo := (hF.makesLive p i hp).2.1
    exact hI.pid i (by simp [hembryo])
  cases b with
  | killMiss pid =>
    cases h
    exact hI.same (fun _ => Or.inl rfl) (fun _ => rfl) (fun _ => rfl) (fun _ => rfl) rfl rfl rfl rfl (Or.inr ⟨pid, rfl⟩)
  | kill pid i =>
    obtain ⟨-, rfl⟩ := of_guard h
    refine hI.same (fun j => Or.inl ?_) (fun j => ?_) (fun j => ?_) (fun j => ?_) rfl rfl rfl rfl (Or.inr ⟨pid, rfl⟩) <;>
      by_cases hj : j = i <;> simp [hj]
  | fault p =>
    obtain ⟨-, rfl⟩ := of_guard h
    refine hI.same (fun j => Or.inl ?_) (fun j => ?_) (fun j => ?_) (fun j => ?_) rfl rfl rfl rfl (Or.inl rfl) <;>
      by_cases hj : j = p <;> simp [hj]
  | claim p i => exact hI.claim hF h
  | noStack p i =>
    obtain ⟨hplace, rfl⟩ := of_guard h
    have hp := makes_iff.mpr (Or.inl hplace)
    exact hI.set (hmaker hp) (fun h => absurd rfl h) (by simp) (by simp) (by simp) (hI.freed.failed _)
  | stack p i f =>
    obtain ⟨hplace, rfl⟩ := of_guard h
    have hp := makes_iff.mpr (Or.inl hplace)
    have hembryo : (v.life i).phase = .embryo := (hF.makesLive p i hp).2.1
    refine hI.set (hmaker hp) (fun _ => hpidOf hp) ?_ (by simp) (by simp [hembryo]) (hI.freed.cons rfl rfl rfl rfl)
    rintro j ⟨⟩
    exact ⟨rfl, f, rfl, by simp⟩
  | noSpace p i f =>
    obtain ⟨⟨hplace, -⟩, rfl⟩ := of_guard h
    have hp := makes_iff.mpr (Or.inr (Or.inl hplace))
    exact hI.set (hmaker hp) (fun h => absurd rfl h) (by simp) (by simp) (by simp) (hI.freed.failed_kfree _ f)
  | space p i d =>
    obtain ⟨hplace, rfl⟩ := of_guard h
    have hp := makes_iff.mpr (Or.inr (Or.inl hplace))
    have hembryo : (v.life i).phase = .embryo := (hF.makesLive p i hp).2.1
    obtain ⟨f, hf, hs⟩ := hI.copyStack p i hplace
    refine hI.set (hmaker hp) (fun _ => hpidOf hp) (by simp) ?_ (by simp [hembryo]) (hI.freed.cons rfl rfl rfl rfl)
    rintro j ⟨⟩
    exact ⟨rfl, f, d, by simpa [LifeSt.set] using hf, by simp [LifeSt.set], by simp [LifeSt.set, hs], by simp [LifeSt.set]⟩
  | publish p i =>
    obtain ⟨hplace, rfl⟩ := of_guard h
    have hp := makes_iff.mpr (Or.inr (Or.inr hplace))
    refine hI.set (hmaker hp) (fun _ => hpidOf hp) (by simp) (by simp) (fun _ => ?_) (hI.freed.cons rfl rfl rfl rfl)
    exact (hI.publishOwns p i hplace).mono (by simp [LifeSt.set]) (by simp [LifeSt.set]) rfl (List.subset_cons_self _ _)
  | exit p =>
    obtain ⟨⟨-, hlive, -⟩, rfl⟩ := of_guard h
    refine hI.same (fun j => ?_) (fun _ => rfl) (fun _ => rfl) (fun _ => rfl) rfl rfl rfl rfl (Or.inl rfl)
    by_cases hj : j = p
    · subst hj
      exact Or.inr ⟨hlive, by simp⟩
    · simp [hj]
  | reap cur w i f d =>
    obtain ⟨⟨hz, hpar, -, hf, hd, -⟩, rfl⟩ := of_guard h
    obtain ⟨f', d', hf', hd', hs, hsp⟩ := hI.owns i (Or.inr hz)
    rw [hf, Option.some.injEq] at hf'
    rw [hd, Option.some.injEq] at hd'
    have hnot : ∀ q, ¬ (forest v).Makes q i := by
      intro q hq
      have := (hF.makesLive q i hq).2.1
      simp [forest, hz] at this
    exact hI.set (fun q _ => hnot q) (fun h => absurd rfl h) (by simp) (by simp) (by simp)
      (hI.freed.reap cur w i _ _ (hf' ▸ hs) (hd' ▸ hsp))

theorem lifeInv_of_reach {okL : LifeSt → LifeAct → Prop} {v : LifeSt} (h : lifeSys.Reach okL v) : LifeInv v := by
  refine Sys.Reach.invariant_of (J := fun v => (forest v).Inv) (I := LifeInv) (fun _ => forest_inv) ?_
    (fun v b v' hF hI _ hst => hI.step hF hst) h
  rintro v ⟨k, d, rfl⟩
  exact LifeInv.init k d

/-! ## Who is marked as killed -/

/-- The condition on the steps: `kill` finds a slot that is in use, and a fork does not give up a child that has been
killed. -/
def KillOk (v : LifeSt) : LifeAct → Prop
  | .kill _ i => (v.life i).phase ≠ .free
  | .noStack _ i => (v.life i).killed = 0
  | .noSpace _ i _ => (v.life i).killed = 0
  | _ => True

/-- No free slot is marked, and a marked embryo has been killed by its pid. -/
structure KillInv (v : LifeSt) : Prop where
  free : ∀ i, (v.life i).phase = .free → (v.life i).killed = 0
  embryo : ∀ i, (v.life i).phase = .embryo → (v.life i).killed ≠ 0 →
    killedSince (v.inst i) (v.life i).pid v.log = true

/-- A life that ends or goes on keeps the marks of the others; only the slot it changes has to be looked at. -/
theorem KillInv.set {v : LifeSt} (hI : KillInv v) {i : Slot} {x : Life} {p : Slot} {c : Place} {es : List ProcEvent}
    (hes : ∀ n pid, killedSince n pid v.log = true → killedSince n pid (es ++ v.log) = true)
    (hfree : x.phase = .free → x.killed = 0)
    (hembryo : x.phase = .embryo → x.killed ≠ 0 → killedSince (v.inst i) x.pid (es ++ v.log) = true) : KillInv (v.set i x p c es) := by
  have hself : (v.set i x p c es).life i = x := by simp [LifeSt.set]
  have hne : ∀ j, j ≠ i → (v.set i x p c es).life j = v.life j := fun j hj => by simp [LifeSt.set, hj]
  refine ⟨fun j hj => ?_, fun j hj hk => ?_⟩
  · by_cases hji : j = i
    · subst hji
      rw [hself] at hj ⊢
      exact hfree hj
    · rw [hne j hji] at hj ⊢
      exact hI.free j hj
  · by_cases hji : j = i
    · subst hji
      rw [hself] at hj hk ⊢
      exact hembryo hj hk
    · rw [hne j hji] at hj hk ⊢
      exact hes _ _ (hI.embryo j hj hk)

/-- Every step that meets the condition keeps the marks in order. -/
theorem KillInv.step {v v' : LifeSt} {b : LifeAct} (hF : (forest v).Inv) (hI : KillInv v) (hok : KillOk v b)
    (h : v.step b = some v') : KillInv v' := by
  cases b with
  | killMiss pid =>
    cases h
    refine ⟨hI.free, fun i hi hk => ?_⟩
    simp [killedSince, hI.embryo i hi hk]
  | kill pid i =>
    obtain ⟨hpid, rfl⟩ := of_guard h
    refine ⟨fun j hj => ?_, fun j hj hk => ?_⟩
    · by_cases hji : j = i
      · subst hji
        exact absurd (by simpa using hj) hok
      · simp only [update_of_ne hji] at hj ⊢
        exact hI.free j hj
    · by_cases hji : j = i
      · subst hji
        simp [killedSince, hpid]
      · simp only [update_of_ne hji] at hj hk ⊢
        simp [killedSince, hI.embryo j hj hk]
  | fault p =>
    obtain ⟨hlive, rfl⟩ := of_guard h
    refine ⟨fun j hj => ?_, fun j hj hk => ?_⟩
    · by_cases hjp : j = p
      · subst hjp
        simp [hlive] at hj
      · simp only [update_of_ne hjp] at hj ⊢
        exact hI.free j hj
    · by_cases hjp : j = p
      · subst hjp
        simp [hlive] at hj
      · simp only [update_of_ne hjp] at hj hk ⊢
        exact hI.embryo j hj hk
  | claim p i =>
    obtain ⟨⟨-, -, hfree⟩, rfl⟩ := of_guard h
    refine ⟨fun j hj => ?_, fun j hj hk => ?_⟩
    · by_cases hji : j = i
      · subst hji
        simp [LifeSt.set] at hj
      · simp only [LifeSt.set, update_of_ne hji] at hj ⊢
        exact hI.free j hj
    · by_cases hji : j = i
      · subst hji
        exact absurd (hI.free j hfree) (by simpa [LifeSt.set] using hk)
      · -- the new instance is not the one that was killed
        simp only [LifeSt.set, update_of_ne hji] at hj hk ⊢
        have hlt : v.inst j < v.allocs := hF.instLt j (by simp [forest, hj])
        have hne : v.allocs ≠ v.inst j := by omega
        simp [killedSince, hne, hI.embryo j hj hk]
  | noStack p i | noSpace p i f =>
    obtain ⟨hplace, rfl⟩ := of_guard h
    exact hI.set (fun n pid h => h) (fun _ => hok) (by simp)
  | stack p i f | space p i d =>
    obtain ⟨hplace, rfl⟩ := of_guard h
    exact hI.set (fun n pid h => h) (hI.free i) (hI.embryo i)
  | publish p i =>
    obtain ⟨hplace, rfl⟩ := of_guard h
    exact hI.set (fun n pid h => h) (by simp) (by simp)
  | exit p =>
    obtain ⟨⟨-, hlive, -⟩, rfl⟩ := of_guard h
    refine ⟨fun j hj => hI.free j ?_, fun j hj hk => hI.embryo j ?_ hk⟩
    · by_cases hjp : j = p <;> simp_all
    · by_cases hjp : j = p <;> simp_all
  | reap cur w i f d =>
    obtain ⟨-, rfl⟩ := of_guard h
    exact hI.set (fun n pid h => h) (fun _ => rfl) (by simp)

theorem killInv_of_reach {v : LifeSt} (h : lifeSys.Reach KillOk v) : KillInv v := by
  refine Sys.Reach.invariant_of (J := fun v => (forest v).Inv) (I := KillInv) (fun _ => forest_inv) ?_
    (fun v b v' hF hI hok hst => hI.step hF hok hst) h
  rintro v ⟨k, d, rfl⟩
  have hlife : (lifeBoot k d).life = _ := life_userinit k d
  have hkilled : ∀ i, ((lifeBoot k d).life i).killed = 0 := by
    intro i
    rw [hlife]
    by_cases hi : i = 0 <;> simp [hi, initLife, Proc.zero, Proc.life]
  exact ⟨fun i _ => hkilled i, fun i _ hk => absurd (hkilled i) hk⟩

end LifeAux

end OsLab
