import OsLab.Lemmas.MutexProcs
import OsLab.Lib.Wakeup

/-!
# No wakeup of a mutex is lost

`sys_mutex_unlock` wakes the sleepers after it has released `mutex_table_lock`, so a mutex may be unlocked while processes sleep on
it. Each of them is then owed a wakeup by a process that has unlocked the mutex and not yet called `wakeup`: a process goes to sleep
on a mutex only while it is locked, for it keeps `mutex_table_lock` from the test to the hand-over.
-/

namespace OsLab

open Function (update update_self update_of_ne)

namespace MutexWakeupAux

open LifeAux MutexProcAux

/-- The process is `SLEEPING` on `&user_mutexes[id]`. -/
def SleepsOn (A : MutexAddrs) (s : MutexProcSt) (p : Slot) (id : MutexId) : Prop :=
  (s.procs.table.proc p).state = .sleeping ∧ (s.procs.table.proc p).chan = some (.other (A.mutex id))

/-- Who sleeps on which mutex, which mutexes are unlocked, and who has unlocked one and not yet woken its sleepers. -/
def ledger (A : MutexAddrs) (s : MutexProcSt) : Ledger Slot MutexId where
  asleep p := {id | SleepsOn A s p id}
  ready _ := {id | (s.mutexes id).locked = false}
  owes q := {id | s.place q = .waking id}

/-- What holds in every state. -/
structure WakeInv (A : MutexAddrs) (s : MutexProcSt) : Prop where
  handing : ∀ p id, s.place p = .handing id → s.holder = some p ∧ (s.mutexes id).locked = true ∧ (s.mutexes id).allocated = true
  waiting : ∀ p id, s.place p = .waiting id → (s.mutexes id).allocated = true
  asleep : ∀ p id, SleepsOn A s p id → s.place p = .waiting id
  live : ∀ p, s.place p ≠ .user → Live s p
  paid : (ledger A s).Paid

variable {A : MutexAddrs} {s s' : MutexProcSt} {a : MutexProcAct} {p : Slot} {id : MutexId}

theorem mutex_injective {i j : MutexId} (h : A.mutex i = A.mutex j) : i = j := by
  unfold MutexAddrs.mutex at h
  exact Fin.ext (by omega)

/-- The step of the process calls is none that puts a process to sleep on a mutex. -/
theorem not_sleep_of_admits {b : ProcAct} (h : s.admits A b = true) : b ≠ .sleep p (A.mutex id) := by
  rintro rfl
  simp only [MutexProcSt.admits, decide_eq_true_eq] at h
  exact h.2 id rfl

/-- A process that exits is in none of the mutex calls. -/
theorem place_of_exit (h : s.admits A (.exit p) = true) : s.place p = .user := by
  simpa [MutexProcSt.admits] using h

/-- After the wakeup nobody sleeps on the mutex. -/
theorem not_sleepsOn_wakeup {q : Slot} {c : MutexPlace} :
    ¬SleepsOn A ((s.setTable (wakeup1 (some (.other (A.mutex id))) s.procs.table)).setPlace q c) p id := by
  rintro ⟨hs, hc⟩
  exact asleep_wakeup1 hs hc

/-- Whoever sleeps on a mutex after a step slept on it before, or has handed `mutex_table_lock` over in it. -/
theorem SleepsOn.old (hJ : ProcsOk s.procs) (hok : UserWaitxStep s a) (h : MutexCase A s a s') (hp : SleepsOn A s' p id) :
    SleepsOn A s p id ∨ (s.place p = .handing id ∧ s'.place p = .waiting id ∧ s'.mutexes = s.mutexes) := by
  cases h with
  | proc admitted step =>
    obtain ⟨hs, hc⟩ := hp
    rcases (procStep_cases hJ.pc hJ.family hok step).asleep hs with ⟨hs, he⟩ | ⟨addr, rfl, he⟩ | he
    · exact Or.inl ⟨hs, he.symm.trans hc⟩
    · have haddr : addr = A.mutex id := by simpa using he.symm.trans hc
      subst haddr
      exact absurd rfl (not_sleep_of_admits admitted)
    · cases he.symm.trans hc
  | stay act | create free new | locks act free running place | stalls act free running locked place
  | unlocks free place running => exact Or.inl hp
  | wakes running place =>
    obtain ⟨hs, hc⟩ := hp
    obtain ⟨hs, he⟩ := ((calm_wakeup1 _ _).proc p).sleeping hs
    exact Or.inl ⟨hs, he.symm.trans hc⟩
  | handOver running place =>
    rename_i q j
    obtain ⟨hs, hc⟩ := hp
    simp only [MutexProcSt.setPlace, MutexProcSt.setTable] at hs hc ⊢
    by_cases hpq : p = q
    · subst hpq
      have hj : A.mutex j = A.mutex id := by simpa [sleepOn, Table.modify] using hc
      cases mutex_injective hj
      exact Or.inr ⟨place, update_self .., trivial⟩
    · rw [sleepOn_of_ne hpq] at hs hc
      exact Or.inl ⟨hs, hc⟩

/-- A process that another one's step puts elsewhere has not moved, and one that moves runs. -/
theorem place_kept (h : MutexCase A s a s') (p : Slot) :
    s'.place p = s.place p ∨ (s.procs.At p .user ∧ ∀ b, a ≠ .proc b) := by
  have hupd : ∀ {q : Slot} {c : MutexPlace}, s.procs.At q .user → (∀ b, a ≠ .proc b) →
      update s.place q c p = s.place p ∨ (s.procs.At p .user ∧ ∀ b, a ≠ .proc b) := by
    intro q c hq ha
    by_cases hp : p = q
    · subst hp
      exact Or.inr ⟨hq, ha⟩
    · exact Or.inl (update_of_ne hp ..)
  cases h with
  | proc admitted step | stay act | create free new => exact Or.inl rfl
  | locks act free running place | stalls act free running locked place => exact hupd running act
  | handOver running place | unlocks free place running | wakes running place => exact hupd running nofun

/-- A mutex that is unlocked after a step was unlocked before it, was not in use, or has been unlocked by a process that has yet
to wake its sleepers. -/
theorem unlocked_old (h : MutexCase A s a s') (hid : (s'.mutexes id).locked = false) :
    (s.mutexes id).locked = false ∨ (s.mutexes id).allocated = false ∨ ∃ q, s'.place q = .waking id := by
  cases h with
  | create free new =>
    rename_i p j
    by_cases hj : id = j
    · subst hj
      exact Or.inr (Or.inl new)
    · exact Or.inl (by simpa [hj] using hid)
  | locks act free running place =>
    rename_i p j
    by_cases hj : id = j
    · subst hj
      simp [MutexProcSt.setPlace] at hid
    · exact Or.inl (by simpa [MutexProcSt.setPlace, hj] using hid)
  | unlocks free place running =>
    rename_i p j b
    by_cases hj : id = j
    · subst hj
      exact Or.inr (Or.inr ⟨p, update_self ..⟩)
    · exact Or.inl (by simpa [MutexProcSt.setPlace, hj] using hid)
  -- the other steps leave the mutexes as they are
  | _ => exact Or.inl hid

/-- Whoever has yet to wake the sleepers of a mutex still has to after a step that leaves some asleep. -/
theorem waking_kept {q : Slot} (h : MutexCase A s a s') (hq : s.place q = .waking id) :
    s'.place q = .waking id ∨ ∀ p, ¬SleepsOn A s' p id := by
  have hupd : ∀ {r : Slot} {c : MutexPlace}, s.place r ≠ .waking id → update s.place r c q = .waking id := by
    intro r c hr
    have hqr : q ≠ r := by
      rintro rfl
      exact hr hq
    rw [update_of_ne hqr, hq]
  cases h with
  | proc admitted step | stay act | create free new => exact Or.inl hq
  | locks act free running place => exact Or.inl (hupd (by rcases place with hp | hp <;> simp [hp]))
  | stalls act free running locked place => exact Or.inl (hupd (by rcases place with ⟨hp, -⟩ | hp <;> simp [hp]))
  | handOver running place | unlocks free place running => exact Or.inl (hupd (by simp [place]))
  | wakes running place =>
    rename_i r j
    by_cases hj : j = id
    · subst hj
      exact Or.inr fun p => not_sleepsOn_wakeup
    · exact Or.inl (hupd (by simpa [place] using hj))

/-- Who is handing over after a step: nobody new, but the process that has found its mutex locked. -/
theorem WakeInv.handing_step (hI : WakeInv A s) (h : MutexCase A s a s') (p : Slot) (id : MutexId) (hp : s'.place p = .handing id) :
    s'.holder = some p ∧ (s'.mutexes id).locked = true ∧ (s'.mutexes id).allocated = true := by
  -- while `mutex_table_lock` is free nobody is handing it over
  have hnone : ∀ {q : Slot} {c : MutexPlace}, s.holder = none → (∀ i, c ≠ .handing i) →
      update s.place q c p ≠ .handing id := by
    intro q c hfree hc hp
    by_cases hpq : p = q
    · subst hpq
      rw [update_self] at hp
      exact hc id hp
    · rw [update_of_ne hpq] at hp
      cases hfree.symm.trans (hI.handing p id hp).1
  cases h with
  | proc admitted step | stay act => exact hI.handing p id hp
  | create free new => cases free.symm.trans (hI.handing p id hp).1
  | locks act free running place | unlocks free place running => exact absurd hp (hnone free nofun)
  | stalls act free running locked place =>
    rename_i q j
    by_cases hpq : p = q
    · subst hpq
      have hj : j = id := by simpa [MutexProcSt.setPlace] using hp
      subst hj
      exact ⟨rfl, locked, place.elim And.right (hI.waiting p j)⟩
    · have hp' : s.place p = .handing id := by simpa [MutexProcSt.setPlace, hpq] using hp
      cases free.symm.trans (hI.handing p id hp').1
  | handOver running place =>
    rename_i q j
    by_cases hpq : p = q
    · subst hpq
      simp [MutexProcSt.setPlace] at hp
    · have hp' : s.place p = .handing id := by simpa [MutexProcSt.setPlace, MutexProcSt.setTable, hpq] using hp
      have hsome := (hI.handing q j place).1.symm.trans (hI.handing p id hp').1
      exact absurd (Option.some.inj hsome).symm hpq
  | wakes running place =>
    rename_i q j
    by_cases hpq : p = q
    · subst hpq
      simp [MutexProcSt.setPlace] at hp
    · exact hI.handing p id (by simpa [MutexProcSt.setPlace, MutexProcSt.setTable, hpq] using hp)

/-- A mutex in use stays in use. -/
theorem allocated_kept (h : MutexCase A s a s') (hid : (s.mutexes id).allocated = true) : (s'.mutexes id).allocated = true := by
  have hupd : ∀ {j : MutexId} {m : UserMutex}, ((s.mutexes j).allocated = true → m.allocated = true) →
      (update s.mutexes j m id).allocated = true := by
    intro j m hm
    by_cases hj : id = j
    · subst hj
      rw [update_self]
      exact hm hid
    · rwa [update_of_ne hj]
  cases h with
  | create free new => exact hupd fun _ => rfl
  | locks act free running place | unlocks free place running => exact hupd fun h => h
  | _ => exact hid

/-- Who waits for a mutex after a step: nobody new, but the process that has handed over. -/
theorem WakeInv.waiting_step (hI : WakeInv A s) (h : MutexCase A s a s') (p : Slot) (id : MutexId) (hp : s'.place p = .waiting id) :
    (s'.mutexes id).allocated = true := by
  refine allocated_kept h ?_
  have hupd : ∀ {q : Slot} {c : MutexPlace}, update s.place q c p = .waiting id →
      (c = .waiting id → (s.mutexes id).allocated = true) → (s.mutexes id).allocated = true := by
    intro q c hp hc
    by_cases hpq : p = q
    · subst hpq
      rw [update_self] at hp
      exact hc hp
    · rw [update_of_ne hpq] at hp
      exact hI.waiting p id hp
  cases h with
  | locks act free running place | stalls act free running locked place | unlocks free place running
  | wakes running place => exact hupd hp nofun
  | handOver running place =>
    rename_i q j
    refine hupd hp fun hj => ?_
    cases hj
    exact (hI.handing q id place).2.2
  | _ => exact hI.waiting p id hp

/-- Every step keeps the invariant. -/
theorem WakeInv.step (hI : WakeInv A s) (hJ : ProcsOk s.procs) (hok : UserWaitxStep s a) (h : MutexCase A s a s') :
    WakeInv A s' where
  handing := hI.handing_step h
  waiting := hI.waiting_step h
  asleep p id hp := by
    rcases hp.old hJ hok h with hp | ⟨-, hp, -⟩
    · rcases place_kept h p with he | ⟨hrun, -⟩
      · rw [he]
        exact hI.asleep p id hp
      · have hstate := hp.1.symm.trans hrun.1
        cases hstate
    · exact hp
  live p hp := by
    rcases place_kept h p with he | ⟨hrun, ha⟩
    · rw [he] at hp
      refine ((hI.live p hp).step hJ hok h ?_).1
      rintro rfl
      cases h with
      | proc admitted step => exact hp (place_of_exit admitted)
      | stay act | locks act | stalls act => exact act _ rfl
    · exact ((live_of_at hrun).step hJ hok h (ha _)).1
  paid := by
    refine hI.paid.step (fun p id hp hid => ?_) (fun q id hq => waking_kept h hq)
    rcases SleepsOn.old hJ hok h hp with hp | ⟨hhand, -, hmutexes⟩
    · rcases unlocked_old h hid with hold | hnew | howed
      · exact Or.inl ⟨hp, hold⟩
      · cases hnew.symm.trans (hI.waiting p id (hI.asleep p id hp))
      · exact Or.inr howed
    · have hlocked := (hI.handing p id hhand).2.1
      rw [← hmutexes] at hlocked
      cases hlocked.symm.trans hid

theorem awake_userinit (k d : Frame) (p : Slot) : ((userinit k d).proc p).state ≠ .sleeping := by
  by_cases hp : p = 0
  · subst hp
    rw [(userinit_init k d).1]
    nofun
  · rw [userinit_unused k d hp]
    nofun

theorem wakeInv_boot (k d : Frame) : WakeInv A (.boot k d) where
  handing _ _ hp := by cases hp
  waiting _ _ hp := by cases hp
  asleep p _ hp := absurd hp.1 (awake_userinit k d p)
  live _ hp := absurd rfl hp
  paid := Ledger.paid_of_awake fun p _ hp => awake_userinit k d p hp.1

end MutexWakeupAux

open LifeAux MutexProcAux MutexWakeupAux

/-- In every state, if a process is `SLEEPING` on `&user_mutexes[id]` and the mutex is unlocked, then some process, which is neither
`UNUSED` nor `ZOMBIE`, is in `sys_mutex_unlock(id)` after its release and before its wakeup. -/
theorem mutex_wakeup_pending {A : MutexAddrs} {s : MutexProcSt} (h : (mutexProcSys A).Reach UserWaitxStep s) (p : Slot)
    (id : MutexId) (hs : (s.procs.table.proc p).state = .sleeping)
    (hc : (s.procs.table.proc p).chan = some (.other (A.mutex id))) (hid : (s.mutexes id).locked = false) :
    ∃ q, s.place q = .waking id ∧ (s.procs.table.proc q).state ≠ .unused ∧ (s.procs.table.proc q).state ≠ .zombie := by
  have hI : WakeInv A s := by
    refine Sys.Reach.invariant_of (J := fun s => ProcsOk s.procs) (fun t ht => procsOk_of_reach (procs_reach (fun _ _ hok => hok) ht)) ?_
      (fun t a t' hJ hI hok hst => hI.step hJ hok (mutexProcStep_cases hst)) h
    rintro t ⟨k, d, rfl⟩
    exact wakeInv_boot k d
  obtain ⟨q, hq⟩ := hI.paid p id ⟨hs, hc⟩ hid
  have hq : s.place q = .waking id := hq
  exact ⟨q, hq, (hI.live q (by simp [hq])).state⟩

/-- init locks a mutex, its child finds it locked and sleeps, and init unlocks. -/
def childSleeps : List MutexProcAct :=
  [.dispatch 0, .fork 0, .forkStack 0 (some 3), .forkCopy 0 (some 4), .forkPublish 0, .dispatch 1].map .proc ++
    [.create 0, .lock 0 (some 0), .lock 1 (some 0), .handOver 1, .unlock 0 (some 0)]

/-- The state before the wakeup. -/
def childSleepsState : MutexProcSt :=
  ((mutexProcSys sampleMutexAddrs).run (.boot 1 2) childSleeps).get (by decide +kernel)

theorem mutex_wakeup_pending_child : (childSleepsState.procs.table.proc 1).state = .sleeping ∧
    (childSleepsState.mutexes 0).locked = false ∧ ∃ q, childSleepsState.place q = .waking 0 ∧
      (childSleepsState.procs.table.proc q).state ≠ .unused ∧ (childSleepsState.procs.table.proc q).state ≠ .zombie := by
  have hreach : (mutexProcSys sampleMutexAddrs).Reach UserWaitxStep childSleepsState := by
    refine Sys.Reach.run (.init ⟨1, 2, rfl⟩) ?_ (Option.some_get _).symm
    simp [childSleeps, UserWaitxStep, UserWaitx]
  have hs : (childSleepsState.procs.table.proc 1).state = .sleeping := by decide +kernel
  have hid : (childSleepsState.mutexes 0).locked = false := by decide +kernel
  exact ⟨hs, hid, mutex_wakeup_pending hreach 1 0 hs (by decide +kernel) hid⟩

end OsLab
