import OsLab.Lemmas.MutexProcs

/-!
# The owner of a locked mutex is alive

`exit` does not look at the mutexes, so a process that exits while it holds one leaves it locked under the pid of a zombie, and
whoever waits for it waits for ever. As long as processes unlock before they exit, a locked mutex has a living owner.
-/

namespace OsLab

namespace MutexOwnerAux

open LifeAux MutexProcAux

variable {A : MutexAddrs} {s s' : MutexProcSt} {a : MutexProcAct}

/-- Every locked mutex is recorded under the pid of a live process. -/
def Owned (s : MutexProcSt) : Prop :=
  ∀ id, (s.mutexes id).locked = true → ∃ i, Live s i ∧ s.pid i = (s.mutexes id).pid

theorem userWaitxStep_of_unlocksFirst (s : MutexProcSt) (a : MutexProcAct) (h : UnlocksFirst s a) : UserWaitxStep s a := by
  cases a with
  | proc b =>
    cases b with
    | exit p => trivial
    | _ => exact h
  | _ => trivial

/-- The owners of the mutexes that the step leaves locked live on. -/
theorem Owned.frame (hI : Owned s) (hJ : ProcsOk s.procs) (hok : UnlocksFirst s a) (h : MutexCase A s a s')
    (hold : ∀ id, (s'.mutexes id).locked = true → (s.mutexes id).locked = true ∧ (s'.mutexes id).pid = (s.mutexes id).pid ∨
      ∃ i, Live s' i ∧ s'.pid i = (s'.mutexes id).pid) : Owned s' := by
  intro id hid
  rcases hold id hid with ⟨hlocked, hpid⟩ | hnew
  · obtain ⟨i, hl, hi⟩ := hI id hlocked
    have hne : a ≠ .proc (.exit i) := by
      rintro rfl
      exact hok id hlocked hi.symm
    obtain ⟨hl', hi'⟩ := hl.step hJ (userWaitxStep_of_unlocksFirst s a hok) h hne
    exact ⟨i, hl', by rw [hi', hi, hpid]⟩
  · exact hnew

theorem Owned.step (hI : Owned s) (hJ : ProcsOk s.procs) (hok : UnlocksFirst s a) (h : MutexCase A s a s') : Owned s' := by
  refine hI.frame hJ hok h fun id hid => ?_
  cases h with
  | create free new =>
    rename_i p j
    by_cases hj : id = j
    · subst hj
      simp at hid
    · exact Or.inl (by simpa [hj] using hid)
  | locks act free running place =>
    rename_i p j
    by_cases hj : id = j
    · subst hj
      exact Or.inr ⟨p, live_of_at running, by simp [MutexProcSt.setPlace, MutexProcSt.pid]⟩
    · exact Or.inl (by simpa [MutexProcSt.setPlace, hj] using hid)
  | unlocks free place running =>
    rename_i p j b
    by_cases hj : id = j
    · subst hj
      simp [MutexProcSt.setPlace] at hid
    · exact Or.inl (by simpa [MutexProcSt.setPlace, hj] using hid)
  -- the other steps leave the mutexes as they are
  | _ => exact Or.inl ⟨hid, rfl⟩

end MutexOwnerAux

open LifeAux MutexProcAux MutexOwnerAux

/-- In every state of a run in which processes exit only with every mutex unlocked, and `waitx` is given user addresses, a locked
mutex is recorded under the pid of a process that is neither `UNUSED` nor `ZOMBIE`. -/
theorem mutex_owner_lives {A : MutexAddrs} {s : MutexProcSt} (h : (mutexProcSys A).Reach UnlocksFirst s) (id : MutexId)
    (hid : (s.mutexes id).locked = true) :
    ∃ i, (s.procs.table.proc i).pid = (s.mutexes id).pid ∧ (s.procs.table.proc i).state ≠ .unused ∧
      (s.procs.table.proc i).state ≠ .zombie := by
  have hI : Owned s := by
    refine Sys.Reach.invariant_of (J := fun s => ProcsOk s.procs)
      (fun t ht => procsOk_of_reach (procs_reach userWaitxStep_of_unlocksFirst ht)) ?_
      (fun t a t' hJ hI hok hst => hI.step hJ hok (mutexProcStep_cases hst)) h
    rintro t ⟨k, d, rfl⟩ j hj
    cases hj
  obtain ⟨i, hl, hi⟩ := hI id hid
  exact ⟨i, hi, hl.state⟩

/-- init forks a child, which creates a mutex and locks it. -/
def childLocks : List MutexProcAct :=
  [.dispatch 0, .fork 0, .forkStack 0 (some 3), .forkCopy 0 (some 4), .forkPublish 0, .dispatch 1].map .proc ++
    [.create 1, .lock 1 (some 0)]

/-- The state in which the child holds the mutex. -/
def childLocksState : MutexProcSt :=
  ((mutexProcSys sampleMutexAddrs).run (.boot 1 2) childLocks).get (by decide +kernel)

theorem mutex_owner_lives_child : (childLocksState.mutexes 0).locked = true ∧ (childLocksState.mutexes 0).pid = 2 ∧
    ∃ i, (childLocksState.procs.table.proc i).pid = (childLocksState.mutexes 0).pid ∧
      (childLocksState.procs.table.proc i).state ≠ .unused ∧ (childLocksState.procs.table.proc i).state ≠ .zombie := by
  have hreach : (mutexProcSys sampleMutexAddrs).Reach UnlocksFirst childLocksState := by
    refine Sys.Reach.run (.init ⟨1, 2, rfl⟩) ?_ (Option.some_get _).symm
    simp [childLocks, UnlocksFirst, UserWaitx]
  have hid : (childLocksState.mutexes 0).locked = true := by decide +kernel
  exact ⟨hid, by decide +kernel, mutex_owner_lives hreach 0 hid⟩

/-- The child exits without unlocking. -/
def childLeaves : List MutexProcAct := childLocks ++ [.proc (.exitClose 1), .proc (.exit 1)]

/-- The state in which the child is a zombie. -/
def childLeavesState : MutexProcSt :=
  ((mutexProcSys sampleMutexAddrs).run (.boot 1 2) childLeaves).get (by decide +kernel)

/-- The mutex is locked under pid 2, and the only process with that pid is a zombie. -/
theorem mutex_held_by_zombie : (mutexProcSys sampleMutexAddrs).Reachable childLeavesState ∧
    (childLeavesState.mutexes 0).locked = true ∧ (childLeavesState.mutexes 0).pid = 2 ∧
      ∀ i, (childLeavesState.procs.table.proc i).pid = 2 → (childLeavesState.procs.table.proc i).state = .zombie :=
  ⟨Sys.reachable_of_run ⟨1, 2, rfl⟩ (Option.some_get _).symm, by decide +kernel, by decide +kernel, by decide +kernel⟩

end OsLab
