import OsLab.MutexProcs
import OsLab.Lemmas.ProcCases

/-!
# What the mutex calls do to the process table

Seen from the process table a run of `mutexProcSys` is a run of the process calls (`procs_reach`): the hand-over is a `sleep` and
the wakeup of `sys_mutex_unlock` a `wakeup`, and the rest of the mutex calls leave the table alone. `mutexProcStep_cases` says what
each step does to the mutexes and to the places of the processes.
-/

namespace OsLab

namespace MutexProcAux

open LifeAux

variable {A : MutexAddrs} {s s' : MutexProcSt} {a : MutexProcAct} {p : Slot}

/-- What a step does. -/
inductive MutexCase (A : MutexAddrs) (s : MutexProcSt) : MutexProcAct → MutexProcSt → Prop
  /-- A step of the process calls. -/
  | proc {b : ProcAct} {t : ProcSt} (admitted : s.admits A b = true) (step : procStep A.toKernelAddrs s.procs b = some t) :
      MutexCase A s (.proc b) { s with procs := t }
  /-- A call that changes nothing. -/
  | stay {a : MutexProcAct} (act : ∀ b, a ≠ .proc b) : MutexCase A s a s
  /-- `sys_mutex_create` takes an entry. -/
  | create {p : Slot} {id : MutexId} (free : s.holder = none) (new : (s.mutexes id).allocated = false) :
      MutexCase A s (.create p)
        { s with mutexes := Function.update s.mutexes id { allocated := true, locked := false, pid := 0 } }
  /-- `sys_mutex_lock` takes the mutex. -/
  | locks {a : MutexProcAct} {p : Slot} {id : MutexId} (act : ∀ b, a ≠ .proc b) (free : s.holder = none)
      (running : s.procs.At p .user) (place : s.place p = .user ∨ s.place p = .waiting id) :
      MutexCase A s a (({ s with mutexes := Function.update s.mutexes id { s.mutexes id with locked := true, pid := s.pid p } } :
        MutexProcSt).setPlace p .user)
  /-- `sys_mutex_lock` finds the mutex locked and calls `sleep`. -/
  | stalls {a : MutexProcAct} {p : Slot} {id : MutexId} (act : ∀ b, a ≠ .proc b) (free : s.holder = none)
      (running : s.procs.At p .user) (locked : (s.mutexes id).locked = true)
      (place : s.place p = .user ∧ (s.mutexes id).allocated = true ∨ s.place p = .waiting id) :
      MutexCase A s a (({ s with holder := some p } : MutexProcSt).setPlace p (.handing id))
  /-- `sleep` has taken `ptable.lock` and gives up `mutex_table_lock`. -/
  | handOver {p : Slot} {id : MutexId} (running : s.procs.At p .user) (place : s.place p = .handing id) :
      MutexCase A s (.handOver p)
        (({ s.setTable (sleepOn p (.other (A.mutex id)) s.procs.table) with holder := none }).setPlace p (.waiting id))
  /-- `sys_mutex_unlock` has released the mutex, and the table. -/
  | unlocks {p : Slot} {id : MutexId} {b : Arg} (free : s.holder = none) (place : s.place p = .user)
      (running : s.procs.At p .user) :
      MutexCase A s (.unlock p b) (({ s with mutexes := Function.update s.mutexes id { s.mutexes id with locked := false, pid := 0 } } :
        MutexProcSt).setPlace p (.waking id))
  /-- The wakeup of `sys_mutex_unlock`. -/
  | wakes {p : Slot} {id : MutexId} (running : s.procs.At p .user) (place : s.place p = .waking id) :
      MutexCase A s (.wakeup p) ((s.setTable (wakeup1 (some (.other (A.mutex id))) s.procs.table)).setPlace p .user)

/-- A process that is where it is put. -/
theorem setPlace_self {c : MutexPlace} (h : s.place p = c) : s.setPlace p c = s := by
  unfold MutexProcSt.setPlace
  rw [← h, Function.update_eq_self]

/-- A pass of `sys_mutex_lock`, up to the test of `locked`. -/
theorem lockPass_cases {id : MutexId} (act : ∀ b, a ≠ .proc b) (free : s.holder = none) (running : s.procs.At p .user)
    (place : s.place p = .user ∧ (s.mutexes id).allocated = true ∨ s.place p = .waiting id) :
    MutexCase A s a (s.afterPass p id (mutexLockPass (s.pid p) id s.mutexes)) := by
  unfold mutexLockPass
  split
  · rename_i hlocked
    exact .stalls act free running hlocked place
  · exact .locks act free running (place.imp_left And.left)

/-- Every step is one of the cases. -/
theorem mutexProcStep_cases (h : mutexProcStep A s a = some s') : MutexCase A s a s' := by
  cases a with
  | proc b =>
    simp only [mutexProcStep, Option.ite_none_right_eq_some, Option.map_eq_some_iff] at h
    obtain ⟨hb, t, ht, rfl⟩ := h
    exact .proc hb ht
  | create p =>
    obtain ⟨⟨-, hfree⟩, rfl⟩ := of_guard h
    unfold mutexCreate
    split
    · exact .stay (fun _ he => by cases he)
    · rename_i id hid
      have hnew := List.find?_some hid
      exact .create hfree (by simpa using hnew)
  | lock p b =>
    simp only [mutexProcStep, Option.ite_none_right_eq_some] at h
    obtain ⟨⟨hat, hfree⟩, h⟩ := h
    split at h
    · cases h
      exact .stay (fun _ he => by cases he)
    · rename_i id _
      cases h
      unfold mutexLock
      split
      · simp only [MutexProcSt.afterPass]
        rw [setPlace_self hat.2]
        exact .stay (fun _ he => by cases he)
      · rename_i halloc
        exact lockPass_cases (fun _ he => by cases he) hfree hat.1 (Or.inl ⟨hat.2, by simpa using halloc⟩)
  | handOver p =>
    simp only [mutexProcStep] at h
    split at h
    · rename_i id hid
      obtain ⟨hat, rfl⟩ := of_guard h
      exact .handOver hat hid
    · cases h
  | retry p =>
    simp only [mutexProcStep] at h
    split at h
    · rename_i id hid
      obtain ⟨⟨hat, hfree⟩, rfl⟩ := of_guard h
      exact lockPass_cases (fun _ he => by cases he) hfree hat (Or.inr hid)
    · cases h
  | unlock p b =>
    simp only [mutexProcStep, Option.ite_none_right_eq_some] at h
    obtain ⟨⟨hat, hfree⟩, h⟩ := h
    split at h
    · cases h
      exact .stay (fun _ he => by cases he)
    · rename_i id _
      unfold mutexUnlock at h
      split at h
      · rename_i t heq
        cases h
        split at heq
        · simp at heq
        · cases heq
          exact .unlocks hfree hat.2 hat.1
      · cases h
        exact .stay (fun _ he => by cases he)
  | wakeup p =>
    simp only [mutexProcStep] at h
    split at h
    · rename_i id hid
      obtain ⟨hat, rfl⟩ := of_guard h
      exact .wakes hat hid
    · cases h

/-- What a step is to the process table: a step of the process calls, or nothing. -/
theorem MutexCase.procs (h : MutexCase A s a s') (hok : UserWaitxStep s a) : s'.procs = s.procs ∨
    ∃ b, UserWaitx s.procs b ∧ (∀ p, b = .exit p → a = .proc (.exit p)) ∧ procStep A.toKernelAddrs s.procs b = some s'.procs := by
  cases h with
  | proc admitted step => exact Or.inr ⟨_, hok, by rintro p rfl; rfl, step⟩
  | stay act | create free new | locks act free running place | stalls act free running locked place
  | unlocks free place running => exact Or.inl rfl
  | handOver running place =>
    rename_i p id
    refine Or.inr ⟨.sleep p (A.mutex id), trivial, (fun _ he => by cases he), ?_⟩
    simp only [procStep, running, true_or, if_true]
    rfl
  | wakes running place =>
    rename_i p id
    exact Or.inr ⟨.wakeup (A.mutex id), trivial, (fun _ he => by cases he), rfl⟩

/-- Seen from the process table, a run is a run of the process calls. -/
theorem procs_reach {ok : MutexProcSt → MutexProcAct → Prop} (hsub : ∀ s a, ok s a → UserWaitxStep s a)
    (h : (mutexProcSys A).Reach ok s) : (procSys A.toKernelAddrs).Reach UserWaitx s.procs := by
  refine Sys.Reach.simulate (J := fun _ => True) (f := MutexProcSt.procs) (fun _ _ => trivial) ?_ ?_ h
  · rintro t ⟨k, d, rfl⟩
    exact ⟨k, d, rfl⟩
  · intro t a t' _ hok hst
    rcases (mutexProcStep_cases hst).procs (hsub t a hok) with he | ⟨b, hb, -, hst⟩
    · exact Or.inl he
    · exact Or.inr ⟨b, hb, hst⟩

/-- The process of a slot is neither unborn nor dead. -/
def Live (s : MutexProcSt) (i : Slot) : Prop := ((view s.procs).life i).phase = .live

theorem Live.state {i : Slot} (h : Live s i) :
    (s.procs.table.proc i).state ≠ .unused ∧ (s.procs.table.proc i).state ≠ .zombie := by
  have hphase : (s.procs.table.proc i).state.phase = .live := h
  constructor
  · intro hu
    simp [hu, ProcState.phase] at hphase
  · intro hz
    simp [hz, ProcState.phase] at hphase

theorem live_of_at (h : s.procs.At p .user) : Live s p := live_of_running h.1

/-- A live process lives on with its pid, unless it exits. -/
theorem Live.step {i : Slot} (hl : Live s i) (hJ : ProcsOk s.procs) (hok : UserWaitxStep s a) (h : MutexCase A s a s')
    (hne : a ≠ .proc (.exit i)) : Live s' i ∧ s'.pid i = s.pid i := by
  rcases h.procs hok with he | ⟨b, hb, hexit, hst⟩
  · unfold Live MutexProcSt.pid
    rw [he]
    exact ⟨hl, rfl⟩
  · rcases procStep_view hJ.pc hb hst with he | ⟨c, hc, hst⟩
    · have hpid : s'.pid i = s.pid i := congrArg (fun v => (LifeSt.life v i).pid) he
      unfold Live
      rw [he]
      exact ⟨hl, hpid⟩
    · refine live_kept hJ.family hst ?_ hl
      rintro rfl
      exact hne (hexit i hc)

end MutexProcAux

end OsLab
