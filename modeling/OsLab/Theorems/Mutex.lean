import OsLab.Mutex

/-!
# Mutual exclusion of the user mutexes

`mutexStep_cases` says once what a step can do to the table and to the record; the invariant `MutexInv` ties the two
together, and the statements about `locked`, `pid` and the ids that `mutex_create` returns are read off it.
-/

namespace OsLab

open Function (update update_self update_of_ne)

namespace MutexAux

variable {P : Type*} [DecidableEq P] {pid : P → Int} {i id : MutexId} {s s' : MutexState P} {p : P}

/-- The process is inside the `while` of `sys_mutex_lock(id)`. -/
def Waits (s : MutexState P) (p : P) (id : MutexId) : Prop := s.pc p = .retry id ∨ s.pc p = .asleep id

/-- The waiters of `s'` waited in `s`, or have just been put to sleep on an allocated mutex. -/
def WaitsFrom (s s' : MutexState P) : Prop :=
  ∀ q id, Waits s' q id → Waits s q id ∨ (s.table id).allocated = true

theorem freeMutex_some {t : MutexTable} (h : freeMutex t = some i) : (t i).allocated = false := by
  have := List.find?_some h
  simpa using this

/-- `sys_mutex_unlock` succeeds for the recorded owner of a locked mutex, and otherwise fails and changes nothing. -/
theorem mutexUnlock_cases (n : Int) (id : MutexId) (t : MutexTable) :
    ((t id).locked = true ∧ (t id).pid = n ∧
      mutexUnlock n id t = (0, update t id { t id with locked := false, pid := 0 })) ∨
    mutexUnlock n id t = (-1, t) := by
  unfold mutexUnlock
  split
  · exact Or.inr rfl
  · rename_i hb
    simp only [Bool.or_eq_true, Bool.not_eq_true', bne_iff_ne, ne_eq, not_or, Bool.not_eq_false, not_not] at hb
    exact Or.inl ⟨hb.1.2, hb.2, rfl⟩

/-- Putting a process at a place outside the `while` adds no waiter. -/
theorem waitsFrom_setPc_user {c : MutexPc} (hc : ∀ id, c ≠ .retry id ∧ c ≠ .asleep id) (hpc : s'.pc = update s.pc p c) :
    WaitsFrom s s' := by
  intro q id hq
  left
  unfold Waits at hq ⊢
  rw [hpc] at hq
  by_cases hqp : q = p
  · subst hqp
    rw [update_self] at hq
    exact absurd hq (by simp [hc id])
  · rwa [update_of_ne hqp] at hq

/-- Putting a process to sleep on an allocated mutex, or back to its test of the mutex it waits for, keeps `WaitsFrom`. -/
theorem waitsFrom_setPc {c : MutexPc} (hc : c = .retry id ∨ c = .asleep id) (hw : Waits s p id ∨ (s.table id).allocated = true)
    (hpc : s'.pc = update s.pc p c) : WaitsFrom s s' := by
  intro q j hq
  unfold Waits at hq
  rw [hpc] at hq
  by_cases hqp : q = p
  · subst hqp
    rw [update_self] at hq
    have hj : j = id := by
      rcases hc with rfl | rfl <;> simpa [eq_comm] using hq
    exact hj ▸ hw
  · rw [update_of_ne hqp] at hq
    exact Or.inl hq

/-- What a pass of `sys_mutex_lock(id)` can come to, for a mutex whose number was checked or that is waited for. -/
theorem afterPass_cases (pid : P → Int) (hw : Waits s p id ∨ (s.table id).allocated = true) :
    let s' := s.afterPass p id (mutexLockPass (pid p) id s.table)
    WaitsFrom s s' ∧ ((s'.table = s.table ∧ s'.log = s.log) ∨
      ((s.table id).locked = false ∧ s'.table = update s.table id { s.table id with locked := true, pid := pid p } ∧
        s'.log = .locked p id :: s.log)) := by
  by_cases hl : (s.table id).locked = true
  · have he : mutexLockPass (pid p) id s.table = (.sleep, s.table) := by simp [mutexLockPass, hl]
    rw [he]
    exact ⟨waitsFrom_setPc (Or.inr rfl) hw rfl, Or.inl ⟨rfl, rfl⟩⟩
  · have he : mutexLockPass (pid p) id s.table =
        (.ret 0, update s.table id { s.table id with locked := true, pid := pid p }) := by
      simp [mutexLockPass, hl]
    rw [he]
    exact ⟨waitsFrom_setPc_user (c := .user) (by simp) rfl, Or.inr ⟨by simpa using hl, rfl, rfl⟩⟩

/-- What a step can do: nothing to the table and the record, a creation, a locking, or an unlocking. -/
theorem mutexStep_cases {a : MutexAct P} (h : mutexStep pid s a = some s') :
    WaitsFrom s s' ∧
    ((s'.table = s.table ∧ s'.log = s.log) ∨
      (∃ p i, (s.table i).allocated = false ∧
        s'.table = update s.table i { allocated := true, locked := false, pid := 0 } ∧
        s'.log = .created p i :: s.log) ∨
      (∃ p id, (Waits s p id ∨ (s.table id).allocated = true) ∧ (s.table id).locked = false ∧
        s'.table = update s.table id { s.table id with locked := true, pid := pid p } ∧
        s'.log = .locked p id :: s.log) ∨
      (∃ p id, (s.table id).locked = true ∧ (s.table id).pid = pid p ∧
        s'.table = update s.table id { s.table id with locked := false, pid := 0 } ∧
        s'.log = .unlocked p id :: s.log)) := by
  have hself : WaitsFrom s s := fun q id hq => Or.inl hq
  cases a with
  | create p =>
    simp only [mutexStep, mutexCreate] at h
    split at h
    · cases hf : freeMutex s.table with
      | none =>
        simp only [hf, Option.some.injEq] at h
        exact h ▸ ⟨hself, Or.inl ⟨rfl, rfl⟩⟩
      | some i =>
        simp only [hf, Option.some.injEq] at h
        subst h
        exact ⟨hself, Or.inr (Or.inl ⟨p, i, freeMutex_some hf, rfl, rfl⟩)⟩
    · cases h
  | lock p a =>
    simp only [mutexStep] at h
    split at h
    · cases ha : argMutex a with
      | none =>
        simp only [ha, Option.some.injEq] at h
        exact h ▸ ⟨hself, Or.inl ⟨rfl, rfl⟩⟩
      | some id =>
        simp only [ha, Option.some.injEq] at h
        by_cases hal : (s.table id).allocated = true
        · have he : mutexLock (pid p) id s.table = mutexLockPass (pid p) id s.table := by simp [mutexLock, hal]
          rw [he] at h
          obtain ⟨hw, hc⟩ := afterPass_cases pid (s := s) (p := p) (Or.inr hal)
          rw [h] at hw hc
          refine ⟨hw, ?_⟩
          rcases hc with hc | ⟨h1, h2, h3⟩
          · exact Or.inl hc
          · exact Or.inr (Or.inr (Or.inl ⟨p, id, Or.inr hal, h1, h2, h3⟩))
        · have he : mutexLock (pid p) id s.table = (.ret (-1), s.table) := by simp [mutexLock, hal]
          rw [he] at h
          subst h
          exact ⟨waitsFrom_setPc_user (c := .user) (by simp) rfl, Or.inl ⟨rfl, rfl⟩⟩
    · cases h
  | retry p =>
    simp only [mutexStep] at h
    split at h
    · rename_i id hpc
      simp only [Option.some.injEq] at h
      have hwp : Waits s p id ∨ (s.table id).allocated = true := Or.inl (Or.inl hpc)
      obtain ⟨hw, hc⟩ := afterPass_cases pid hwp
      rw [h] at hw hc
      refine ⟨hw, ?_⟩
      rcases hc with hc | ⟨h1, h2, h3⟩
      · exact Or.inl hc
      · exact Or.inr (Or.inr (Or.inl ⟨p, id, hwp, h1, h2, h3⟩))
    · cases h
  | unlock p a =>
    simp only [mutexStep] at h
    split at h
    · cases ha : argMutex a with
      | none =>
        simp only [ha, Option.some.injEq] at h
        exact h ▸ ⟨hself, Or.inl ⟨rfl, rfl⟩⟩
      | some id =>
        simp only [ha] at h
        rcases mutexUnlock_cases (pid p) id s.table with ⟨hl, hp, he⟩ | he
        · simp only [he, Option.some.injEq] at h
          subst h
          exact ⟨waitsFrom_setPc_user (c := .waking id) (by simp) rfl,
            Or.inr (Or.inr (Or.inr ⟨p, id, hl, hp, rfl, rfl⟩))⟩
        · simp only [he, Option.some.injEq] at h
          exact h ▸ ⟨hself, Or.inl ⟨rfl, rfl⟩⟩
    · cases h
  | wakeup p =>
    simp only [mutexStep] at h
    split at h
    · rename_i id hpc
      simp only [Option.some.injEq] at h
      subst h
      refine ⟨?_, Or.inl ⟨rfl, rfl⟩⟩
      intro q j hq
      unfold Waits MutexState.setPc at hq
      by_cases hqp : q = p
      · subst hqp
        simp at hq
      · simp only [update_of_ne hqp] at hq
        by_cases hqa : s.pc q = .asleep id
        · rw [if_pos hqa] at hq
          have hj : j = id := by simpa [eq_comm] using hq
          exact hj ▸ Or.inl (Or.inr hqa)
        · rw [if_neg hqa] at hq
          exact Or.inl hq
    · cases h
  | kill p =>
    simp only [mutexStep] at h
    split at h
    · rename_i id hpc
      simp only [Option.some.injEq] at h
      subst h
      exact ⟨waitsFrom_setPc (c := .retry id) (Or.inl rfl) (Or.inl (Or.inr hpc)) rfl, Or.inl ⟨rfl, rfl⟩⟩
    · simp only [Option.some.injEq] at h
      subst h
      exact ⟨fun q id hq => Or.inl hq, Or.inl ⟨rfl, rfl⟩⟩

/-- What ties the table to the record, in every reachable state. -/
structure MutexInv (pid : P → Int) (s : MutexState P) : Prop where
  /-- A mutex is locked exactly while some process holds it. -/
  locked : ∀ id, (s.table id).locked = true ↔ ∃ p, holds p id s.log = true
  /-- The recorded owner is the process that holds it. -/
  owner : ∀ p id, holds p id s.log = true → (s.table id).pid = pid p
  /-- Only an allocated mutex is ever locked, or waited for. -/
  lockedAlloc : ∀ id, (s.table id).locked = true → (s.table id).allocated = true
  waitsAlloc : ∀ p id, Waits s p id → (s.table id).allocated = true
  /-- The ids handed out are distinct, and each is allocated. -/
  created : (createdIds s.log).Nodup
  createdAlloc : ∀ id ∈ createdIds s.log, (s.table id).allocated = true

theorem MutexInv.init : MutexInv pid .boot := by
  refine ⟨?_, ?_, ?_, ?_, List.nodup_nil, ?_⟩
  · simp [MutexState.boot, MutexTable.boot, holds]
  · simp [MutexState.boot, holds]
  · simp [MutexState.boot, MutexTable.boot]
  · rintro p id (h | h) <;> cases h
  · simp [MutexState.boot, createdIds]

/-- A holder of a mutex is its only holder. -/
theorem MutexInv.holder_unique (hpid : Function.Injective pid) (hI : MutexInv pid s) {q : P} (hp : holds p id s.log = true)
    (hq : holds q id s.log = true) : p = q :=
  hpid ((hI.owner p id hp).symm.trans (hI.owner q id hq))

/-- A waiter of `s'` waits for a mutex that was allocated in `s`. -/
theorem MutexInv.waits_alloc (hI : MutexInv pid s) (hw : WaitsFrom s s') (h : Waits s' p id) : (s.table id).allocated = true := by
  rcases hw p id h with h | h
  · exact hI.waitsAlloc p id h
  · exact h

/-- Nobody holds a mutex that is not locked. -/
theorem MutexInv.holds_eq_false (hI : MutexInv pid s) (hl : (s.table id).locked = false) (p : P) : holds p id s.log = false := by
  by_contra hc
  have hlocked := (hI.locked id).mpr ⟨p, by simpa using hc⟩
  simp [hl] at hlocked

/-- A step that changes neither the table nor the record. -/
theorem MutexInv.same (hI : MutexInv pid s) (hw : WaitsFrom s s') (ht : s'.table = s.table) (hlog : s'.log = s.log) :
    MutexInv pid s' where
  locked := by rw [ht, hlog]; exact hI.locked
  owner := by rw [ht, hlog]; exact hI.owner
  lockedAlloc := by rw [ht]; exact hI.lockedAlloc
  waitsAlloc q id hq := by
    rw [ht]
    exact hI.waits_alloc hw hq
  created := by rw [hlog]; exact hI.created
  createdAlloc := by rw [ht, hlog]; exact hI.createdAlloc

/-- A creation: the mutex was not allocated, so nobody held it. -/
theorem MutexInv.create (hI : MutexInv pid s) (hw : WaitsFrom s s') (hfree : (s.table i).allocated = false)
    (ht : s'.table = update s.table i { allocated := true, locked := false, pid := 0 }) (hlog : s'.log = .created p i :: s.log) :
    MutexInv pid s' := by
  have hnl : (s.table i).locked = false := by
    by_contra hc
    have := hI.lockedAlloc i (by simpa using hc)
    simp [hfree] at this
  have hnone := hI.holds_eq_false hnl
  have hholds : ∀ q id, holds q id s'.log = holds q id s.log := fun q id => by rw [hlog]; rfl
  have halloc : ∀ id, (s.table id).allocated = true → (s'.table id).allocated = true := by
    intro id hid
    rw [ht]
    by_cases hii : id = i <;> simp [update, hii, hid]
  refine ⟨fun id => ?_, fun q id hq => ?_, fun id hid => ?_, fun q id hq => halloc id (hI.waits_alloc hw hq), ?_, fun id hid => ?_⟩
  · simp only [hholds]
    by_cases hii : id = i
    · subst hii
      simp [ht, hnone]
    · rw [ht, update_of_ne hii]
      exact hI.locked id
  · rw [hholds] at hq
    by_cases hii : id = i
    · subst hii
      simp [hnone q] at hq
    · rw [ht, update_of_ne hii]
      exact hI.owner q id hq
  · rw [ht] at hid ⊢
    by_cases hii : id = i
    · subst hii
      simp
    · rw [update_of_ne hii] at hid ⊢
      exact hI.lockedAlloc id hid
  · rw [hlog]
    refine List.nodup_cons.mpr ⟨fun hmem => ?_, hI.created⟩
    have := hI.createdAlloc i hmem
    simp [hfree] at this
  · rw [hlog] at hid
    rcases List.mem_cons.mp hid with rfl | hid
    · rw [ht]
      simp
    · exact halloc id (hI.createdAlloc id hid)

/-- A step that locks or unlocks one allocated mutex, and leaves the others and their holders alone. -/
theorem MutexInv.change {m : UserMutex} (hI : MutexInv pid s) (hw : WaitsFrom s s') (ht : s'.table = update s.table i m)
    (hal : (s.table i).allocated = true) (hm : m.allocated = true) (hcreated : createdIds s'.log = createdIds s.log)
    (hother : ∀ q id, id ≠ i → holds q id s'.log = holds q id s.log) (hlocked : m.locked = true ↔ ∃ p, holds p i s'.log = true)
    (howner : ∀ p, holds p i s'.log = true → m.pid = pid p) : MutexInv pid s' := by
  have halloc : ∀ id, (s'.table id).allocated = (s.table id).allocated := by
    intro id
    rw [ht]
    by_cases hii : id = i
    · subst hii
      rw [update_self, hm, hal]
    · rw [update_of_ne hii]
  refine ⟨fun id => ?_, fun q id hq => ?_, fun id hid => ?_, fun q id hq => ?_, ?_, fun id hid => ?_⟩
  · by_cases hii : id = i
    · subst hii
      rw [ht, update_self]
      exact hlocked
    · rw [ht, update_of_ne hii]
      simp only [hother _ id hii]
      exact hI.locked id
  · by_cases hii : id = i
    · subst hii
      rw [ht, update_self]
      exact howner q hq
    · rw [ht, update_of_ne hii]
      exact hI.owner q id (by rwa [hother q id hii] at hq)
  · rw [halloc]
    by_cases hii : id = i
    · rw [hii]
      exact hal
    · rw [ht, update_of_ne hii] at hid
      exact hI.lockedAlloc id hid
  · rw [halloc]
    exact hI.waits_alloc hw hq
  · rw [hcreated]
    exact hI.created
  · rw [halloc]
    exact hI.createdAlloc id (by rwa [hcreated] at hid)

/-- A locking: nobody held the mutex, and now `p` does. -/
theorem MutexInv.lock (hI : MutexInv pid s) (hw : WaitsFrom s s') (hal : (s.table i).allocated = true) (hl : (s.table i).locked = false)
    (ht : s'.table = update s.table i { s.table i with locked := true, pid := pid p }) (hlog : s'.log = .locked p i :: s.log) :
    MutexInv pid s' := by
  have hnone := hI.holds_eq_false hl
  refine hI.change hw ht hal hal (by rw [hlog]; rfl) (fun q id hii => ?_) ?_ fun q hq => ?_
  · rw [hlog]
    simp [holds, Ne.symm hii]
  · exact iff_of_true rfl ⟨p, by simp [hlog, holds]⟩
  · by_cases hpq : p = q
    · rw [hpq]
    · simp [hlog, holds, hpq, hnone q] at hq

/-- An unlocking: `p` was the only holder. -/
theorem MutexInv.unlock (hpid : Function.Injective pid) (hI : MutexInv pid s) (hw : WaitsFrom s s') (hl : (s.table i).locked = true)
    (hp : (s.table i).pid = pid p) (ht : s'.table = update s.table i { s.table i with locked := false, pid := 0 })
    (hlog : s'.log = .unlocked p i :: s.log) :
    MutexInv pid s' := by
  have hnone : ∀ r, holds r i s'.log = false := by
    intro r
    obtain ⟨q, hq⟩ := (hI.locked i).mp hl
    obtain rfl : q = p := hpid ((hI.owner q i hq).symm.trans hp)
    rw [hlog]
    simp only [holds]
    by_cases hqr : q = r
    · simp [hqr]
    · simp only [hqr, false_and, if_false]
      by_contra hc
      exact hqr (hI.holder_unique hpid hq (by simpa using hc))
  have hal := hI.lockedAlloc i hl
  refine hI.change hw ht hal hal (by rw [hlog]; rfl) (fun q id hii => ?_) ?_ fun q hq => ?_
  · rw [hlog]
    simp [holds, Ne.symm hii]
  · simp [hnone]
  · simp [hnone q] at hq

/-- Every step keeps the invariant. -/
theorem MutexInv.step (hpid : Function.Injective pid) {a : MutexAct P} (hI : MutexInv pid s) (h : mutexStep pid s a = some s') :
    MutexInv pid s' := by
  obtain ⟨hw, ⟨ht, hlog⟩ | ⟨p, i, hfree, ht, hlog⟩ | ⟨p, i, hal, hl, ht, hlog⟩ | ⟨p, i, hl, hp, ht, hlog⟩⟩ :=
    mutexStep_cases h
  · exact hI.same hw ht hlog
  · exact hI.create hw hfree ht hlog
  · have hial : (s.table i).allocated = true := by
      rcases hal with hal | hal
      · exact hI.waitsAlloc p i hal
      · exact hal
    exact hI.lock hw hial hl ht hlog
  · exact hI.unlock hpid hw hl hp ht hlog

/-- The invariant holds of every reachable state. -/
theorem mutexInv_reachable (hpid : Function.Injective pid) (h : (mutexSys pid).Reachable s) : MutexInv pid s := by
  refine Sys.Reach.invariant (fun t ht => ?_) (fun t a t' hI _ hst => hI.step hpid hst) h
  rw [show t = _ from ht]
  exact MutexInv.init

end MutexAux

open MutexAux

/-- Mutual exclusion, for any number of processes with distinct pids and any order of their steps. In every reachable state
and for every mutex: at most one process holds it; `locked` is set exactly when one does, and `pid` is then its pid; a
`mutex_unlock` by any other process returns -1 and changes nothing, in the table or in the whole state; and no two
`mutex_create` have returned the same id. -/
theorem mutex_exclusion {P : Type*} [DecidableEq P] (pid : P → Int) (hpid : Function.Injective pid) (s : MutexState P)
    (h : (mutexSys pid).Reachable s) :
    (∀ id p q, holds p id s.log = true → holds q id s.log = true → p = q) ∧
    (∀ id, (s.table id).locked = true ↔ ∃ p, holds p id s.log = true) ∧
    (∀ id p, holds p id s.log = true → (s.table id).pid = pid p) ∧
    (∀ id p, holds p id s.log = false → mutexUnlock (pid p) id s.table = (-1, s.table)) ∧
    (∀ p a s', (∀ id, argMutex a = some id → holds p id s.log = false) →
      mutexStep pid s (.unlock p a) = some s' → s' = s) ∧
    (createdIds s.log).Nodup := by
  have hI := mutexInv_reachable hpid h
  have hfail : ∀ id p, holds p id s.log = false → mutexUnlock (pid p) id s.table = (-1, s.table) := by
    intro id p hp
    rcases mutexUnlock_cases (pid p) id s.table with ⟨hl, he, -⟩ | he
    · obtain ⟨q, hq⟩ := (hI.locked id).mp hl
      have hqp : q = p := hpid ((hI.owner q id hq).symm.trans he)
      subst hqp
      simp [hq] at hp
    · exact he
  refine ⟨fun id p q hp hq => hI.holder_unique hpid hp hq, hI.locked, fun id p => hI.owner p id, hfail, ?_, hI.created⟩
  intro p a s' hp hst
  simp only [mutexStep] at hst
  split at hst
  · cases ha : argMutex a with
    | none =>
      simp only [ha, Option.some.injEq] at hst
      exact hst.symm
    | some id =>
      simp only [ha, hfail id p (hp id ha), Option.some.injEq] at hst
      exact hst.symm
  · cases hst

/-- The pids of the runs below: process `n` has pid `n + 1`. -/
def pidSucc (n : Nat) : Int := n + 1

theorem pidSucc_injective : Function.Injective pidSucc := by
  intro a b hab
  unfold pidSucc at hab
  omega

/-- Process 0 creates a mutex and locks it; process 1 goes to sleep on it. -/
def lockedRun : Option (MutexState Nat) :=
  (mutexSys pidSucc).run .boot [.create 0, .lock 0 (some 0), .lock 1 (some 0)]

/-- The state that run ends in. -/
def lockedState : MutexState Nat := lockedRun.get (by decide)

/-- In that run the mutex is locked, its holder is process 0 and no other, and an unlock by process 1 is refused. -/
theorem mutex_exclusion_lockedState :
    lockedRun = some lockedState ∧ holds 0 0 lockedState.log = true ∧ lockedState.pc 1 = .asleep 0 ∧
      (lockedState.table 0).pid = 1 ∧ (∀ q, holds q 0 lockedState.log = true → 0 = q) ∧
      mutexUnlock 2 0 lockedState.table = (-1, lockedState.table) := by
  have hrun : lockedRun = some lockedState := (Option.some_get _).symm
  have hx := mutex_exclusion pidSucc pidSucc_injective lockedState (Sys.reachable_of_run rfl hrun)
  exact ⟨hrun, by decide, by decide, by decide, fun q hq => hx.1 0 0 q (by decide) hq, hx.2.2.2.1 0 1 (by decide)⟩

end OsLab
