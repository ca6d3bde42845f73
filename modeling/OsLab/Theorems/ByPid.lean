import OsLab.Lemmas.LifeRuns

/-!
# Calls by pid

`kill` and `set_priority` go by the pid alone. A slot that was reaped, or never used, has pid 0, and one that a fork has given up keeps
the pid that it had got. So these calls act on live processes only exactly when no unused slot has the pid (`pid_calls_iff`).
-/

namespace OsLab

/-- A call that names a process by its pid. -/
inductive PidCall where
  | kill (pid : Int)
  | sigkill (pid : Int)
  | setPriority (pid prio : Int)
  deriving DecidableEq, Repr

namespace PidCall

/-- The call on a table: what it returns, and the table after it. -/
def run : PidCall → Table → Int × Table
  | .kill pid => sysKill (some pid)
  | .sigkill pid => sysSigkill (some pid)
  | .setPriority pid prio => sysSetPriority (some pid) (some prio)

def pid : PidCall → Int
  | .kill pid => pid
  | .sigkill pid => pid
  | .setPriority pid _ => pid

/-- The priority, if one is given, is in the range that `set_priority` takes. -/
def InRange : PidCall → Prop
  | .setPriority _ prio => 0 ≤ prio ∧ prio ≤ 100
  | _ => True

/-- What the call returns when it acts on a process. -/
def value : PidCall → Proc → Int
  | .setPriority _ _, p => p.priority
  | _, _ => 0

/-- What the call does to the process that it acts on. -/
def effect : PidCall → Proc → Proc
  | .setPriority _ prio, p => { p with priority := prio }
  | _, p => { p with killed := 1, state := if p.state = .sleeping then .runnable else p.state }

end PidCall

/-- The slot is in use and has this pid. -/
def Names (t : Table) (pid : Int) (i : Slot) : Prop := (t.proc i).state ≠ .unused ∧ (t.proc i).pid = pid

/-- The call acts on a live process: it succeeds exactly when a slot in use has the pid, and changes that slot only, and otherwise it
returns -1 and changes nothing. -/
structure ActsOnLive (c : PidCall) (t : Table) : Prop where
  found : (∃ i, Names t c.pid i) → ∃ i, Names t c.pid i ∧ c.run t = (c.value (t.proc i), t.modify i c.effect)
  missing : (¬∃ i, Names t c.pid i) → c.run t = (-1, t)

namespace ByPidAux

open LifeAux

/-! ## The pids that have been handed out -/

/-- What a step does to the pids: some go to zero, or one slot gets the next one. -/
theorem pids_step {v v' : LifeSt} {b : LifeAct} (h : v.step b = some v') :
    (v'.inst = v.inst ∧ v'.allocs = v.allocs ∧ ∀ i, (v'.life i).pid = (v.life i).pid ∨ (v'.life i).pid = 0) ∨
      ∃ i, v'.inst = Function.update v.inst i v.allocs ∧ v'.allocs = v.allocs + 1 ∧ (v'.life i).pid = v.nextpid ∧
        ∀ j, j ≠ i → (v'.life j).pid = (v.life j).pid := by
  have hset : ∀ (i : Slot) (x : Life) (p : Slot) (c : Place) (es : List ProcEvent), x.pid = (v.life i).pid ∨ x.pid = 0 →
      ∀ j, ((v.set i x p c es).life j).pid = (v.life j).pid ∨ ((v.set i x p c es).life j).pid = 0 := by
    intro i x p c es hx j
    by_cases hj : j = i
    · subst hj
      simpa [LifeSt.set] using hx
    · exact .inl (by simp [LifeSt.set, hj])
  cases b with
  | killMiss pid =>
    cases h
    exact .inl ⟨rfl, rfl, fun _ => .inl rfl⟩
  | kill pid i =>
    obtain ⟨-, rfl⟩ := of_guard h
    refine .inl ⟨rfl, rfl, fun j => .inl ?_⟩
    by_cases hj : j = i <;> simp [hj]
  | fault p =>
    obtain ⟨-, rfl⟩ := of_guard h
    refine .inl ⟨rfl, rfl, fun j => .inl ?_⟩
    by_cases hj : j = p <;> simp [hj]
  | claim p i =>
    obtain ⟨-, rfl⟩ := of_guard h
    refine .inr ⟨i, rfl, rfl, by simp [LifeSt.set], fun j hj => by simp [LifeSt.set, hj]⟩
  | noStack p i | stack p i f | noSpace p i f | space p i d | publish p i =>
    obtain ⟨-, rfl⟩ := of_guard h
    exact .inl ⟨rfl, rfl, hset _ _ _ _ _ (.inl rfl)⟩
  | exit p =>
    obtain ⟨-, rfl⟩ := of_guard h
    exact .inl ⟨rfl, rfl, fun _ => .inl rfl⟩
  | reap cur w i f d =>
    obtain ⟨-, rfl⟩ := of_guard h
    exact .inl ⟨rfl, rfl, hset _ _ _ _ _ (.inr rfl)⟩

/-- A slot, in use or not, has pid 0 or the pid of the last process that it was allocated for, and no two slots were allocated for one
process. -/
structure PidInv (v : LifeSt) : Prop where
  pid : ∀ i, (v.life i).pid ≠ 0 → (v.life i).pid = int32 (v.inst i + 1) ∧ v.inst i < v.allocs
  inj : ∀ i j, (v.life i).pid ≠ 0 → (v.life j).pid ≠ 0 → v.inst i = v.inst j → i = j

theorem PidInv.init (k d : Frame) : PidInv (lifeBoot k d) := by
  have hzero : ∀ i, i ≠ 0 → ((lifeBoot k d).life i).pid = 0 := by
    intro i hi
    rw [show (lifeBoot k d).life = _ from life_userinit k d, Function.update_of_ne hi]
    rfl
  refine ⟨fun i hi => ?_, fun i j hi hj _ => ?_⟩
  · obtain rfl : i = 0 := by_contra fun h => hi (hzero i h)
    exact ⟨show (1 : Int) = int32 ((0 : Nat) + 1) by decide, Nat.one_pos⟩
  · rw [by_contra fun h => hi (hzero i h), by_contra fun h => hj (hzero j h)]

theorem PidInv.step {v v' : LifeSt} {b : LifeAct} (hL : LifeInv v) (hI : PidInv v) (h : v.step b = some v') : PidInv v' := by
  rcases pids_step h with ⟨hinst, hallocs, hpid⟩ | ⟨n, hinst, hallocs, hnew, hpid⟩
  · have hold : ∀ i, (v'.life i).pid ≠ 0 → (v.life i).pid ≠ 0 ∧ (v'.life i).pid = (v.life i).pid := by
      intro i hi
      rcases hpid i with he | he
      · exact ⟨he ▸ hi, he⟩
      · exact absurd he hi
    refine ⟨fun i hi => ?_, fun i j hi hj hij => ?_⟩
    · rw [hinst, hallocs, (hold i hi).2]
      exact hI.pid i (hold i hi).1
    · rw [hinst] at hij
      exact hI.inj i j (hold i hi).1 (hold j hj).1 hij
  · -- the new pid is the one of an instance that no other slot was allocated for
    have hlt : ∀ j, j ≠ n → (v'.life j).pid ≠ 0 → v'.inst j < v.allocs := by
      intro j hj hne
      rw [hinst, Function.update_of_ne hj]
      exact (hI.pid j (hpid j hj ▸ hne)).2
    have hself : v'.inst n = v.allocs := by rw [hinst, Function.update_self]
    refine ⟨fun i hi => ?_, fun i j hi hj hij => ?_⟩
    · by_cases hin : i = n
      · subst hin
        rw [hnew, hself, hallocs]
        exact ⟨hL.nextpid, Nat.lt_succ_self _⟩
      · refine ⟨?_, hallocs ▸ Nat.lt_succ_of_lt (hlt i hin hi)⟩
        rw [hpid i hin, hinst, Function.update_of_ne hin]
        exact (hI.pid i (hpid i hin ▸ hi)).1
    · by_cases hin : i = n <;> by_cases hjn : j = n
      · rw [hin, hjn]
      · subst hin
        have := hlt j hjn hj
        omega
      · subst hjn
        have := hlt i hin hi
        omega
      · rw [hinst, Function.update_of_ne hin, Function.update_of_ne hjn] at hij
        exact hI.inj i j (hpid i hin ▸ hi) (hpid j hjn ▸ hj) hij

theorem pidInv_of_reach {okL : LifeSt → LifeAct → Prop} {v : LifeSt} (h : lifeSys.Reach okL v) : PidInv v := by
  refine Sys.Reach.invariant_of (J := LifeInv) (I := PidInv) (fun _ => lifeInv_of_reach) ?_ (fun v b v' hL hI _ hst => hI.step hL hst) h
  rintro v ⟨k, d, rfl⟩
  exact PidInv.init k d

/-- A slot in use shares its pid with no other slot. -/
theorem names_unique {A : KernelAddrs} {s : ProcSt} (h : (procSys A).Reach UserWaitx s) (hn : s.allocs < 2 ^ 31 - 1) {i j : Slot}
    (hi : (s.table.proc i).state ≠ .unused) (hij : (s.table.proc i).pid = (s.table.proc j).pid) : i = j := by
  have hlife : lifeSys.Reach (fun _ _ => True) (view s) := view_reach (fun _ _ => id) (fun _ _ _ _ _ => trivial) h
  have hP := pidInv_of_reach hlife
  have hphase : ((view s).life i).phase ≠ .free := by
    intro hf
    cases hs : (s.table.proc i).state <;> simp [view, Table.life, Proc.life, hs, ProcState.phase] at hf hi
  have hlt : s.inst i < s.allocs := (forest_inv hlife).instLt i hphase
  have hpid : (s.table.proc i).pid = int32 (s.inst i + 1) := (lifeInv_of_reach hlife).pid i hphase
  have hval : int32 (s.inst i + 1) = s.inst i + 1 := int32_of_lt (by omega) (by omega)
  have hi0 : (s.table.proc i).pid ≠ 0 := by omega
  have hj0 : (s.table.proc j).pid ≠ 0 := hij ▸ hi0
  obtain ⟨hpj, hltj⟩ := hP.pid j hj0
  have hpj : (s.table.proc j).pid = int32 (s.inst j + 1) := hpj
  have hltj : s.inst j < s.allocs := hltj
  have hvalj : int32 (s.inst j + 1) = s.inst j + 1 := int32_of_lt (by omega) (by omega)
  exact hP.inj i j hi0 hj0 (show s.inst i = s.inst j by omega)

/-! ## The calls -/

/-- A call acts on the first slot that has its pid. -/
theorem run_of_slot {c : PidCall} {t : Table} {i : Slot} (hc : c.InRange) (h : slotOfPid c.pid t = some i) :
    c.run t = (c.value (t.proc i), t.modify i c.effect) := by
  cases c with
  | kill pid => simp only [PidCall.run, sysKill, kill, show slotOfPid pid t = some i from h]; rfl
  | sigkill pid => simp only [PidCall.run, sysSigkill, kill, show slotOfPid pid t = some i from h]; rfl
  | setPriority pid prio =>
    have hrange : ¬(prio < 0 ∨ prio > 100) := by
      have := hc.1
      have := hc.2
      omega
    simp only [PidCall.run, sysSetPriority, if_neg hrange, show slotOfPid pid t = some i from h]
    rfl

theorem run_of_none {c : PidCall} {t : Table} (h : slotOfPid c.pid t = none) : c.run t = (-1, t) := by
  cases c with
  | kill pid => simp only [PidCall.run, sysKill, kill, show slotOfPid pid t = none from h]
  | sigkill pid => simp only [PidCall.run, sysSigkill, kill, show slotOfPid pid t = none from h]
  | setPriority pid prio =>
    simp only [PidCall.run, sysSetPriority, show slotOfPid pid t = none from h]
    split <;> rfl

/-- A call that finds a slot does not look like one that has failed. -/
theorem run_ne_failed {c : PidCall} {t : Table} {i : Slot} (hc : c.InRange) (h : slotOfPid c.pid t = some i) : c.run t ≠ (-1, t) := by
  rw [run_of_slot hc h]
  intro he
  obtain ⟨hval, htable⟩ := Prod.mk.inj he
  cases c with
  | kill pid | sigkill pid => exact absurd hval (by simp [PidCall.value])
  | setPriority pid prio =>
    have hprio : ((t.modify i (PidCall.setPriority pid prio).effect).proc i).priority = prio := by
      simp [Table.modify, PidCall.effect]
    rw [htable] at hprio
    have hval : (t.proc i).priority = -1 := hval
    have := hc.1
    omega

end ByPidAux

open ByPidAux LifeAux

/-- In every state of a run whose `waitx` calls are given user addresses, while `allocproc` has succeeded fewer than 2^31 - 1 times:
`kill`, `sigkill` and `set_priority` with a priority in range act on live processes only exactly when no `UNUSED` slot has the pid. -/
theorem pid_calls_iff (A : KernelAddrs) (s : ProcSt) (h : (procSys A).Reach UserWaitx s) (hn : s.allocs < 2 ^ 31 - 1) (c : PidCall)
    (hc : c.InRange) : ActsOnLive c s.table ↔ ∀ i, (s.table.proc i).state = .unused → (s.table.proc i).pid ≠ c.pid := by
  constructor
  · rintro ⟨-, hmissing⟩ i hunused hpid
    have hno : ¬∃ j, Names s.table c.pid j := by
      rintro ⟨j, hj, hjp⟩
      obtain rfl := names_unique h hn hj (hjp.trans hpid.symm)
      exact hj hunused
    cases hslot : slotOfPid c.pid s.table with
    | none =>
      have := List.find?_eq_none.mp hslot i (mem_slots i)
      exact this (decide_eq_true hpid)
    | some k => exact run_ne_failed hc hslot (hmissing hno)
  · intro hused
    cases hslot : slotOfPid c.pid s.table with
    | none =>
      have hno : ¬∃ j, Names s.table c.pid j := by
        rintro ⟨j, -, hjp⟩
        exact List.find?_eq_none.mp hslot j (mem_slots j) (decide_eq_true hjp)
      exact ⟨fun hex => absurd hex hno, fun _ => run_of_none hslot⟩
    | some i =>
      have hpid : (s.table.proc i).pid = c.pid := slotOfPid_some hslot
      have hname : Names s.table c.pid i := ⟨fun hunused => hused i hunused hpid, hpid⟩
      exact ⟨fun _ => ⟨i, hname, run_of_slot hc hslot⟩, fun hno => absurd ⟨i, hname⟩ hno⟩

/-- The child that has exited is killed: its slot is in use until it is reaped. -/
theorem pid_calls_zombie : ActsOnLive (.kill 2) zombieState.table ∧ ((PidCall.kill 2).run zombieState.table).1 = 0 :=
  ⟨(pid_calls_iff sampleAddrs zombieState zombieState_reach (by decide +kernel) (.kill 2) trivial).mpr (by decide +kernel),
    by decide +kernel⟩

/-- init calls `fork`, and there is no page for the kernel stack. -/
def failedFork : List ProcAct := [.dispatch 0, .fork 0, .forkStack 0 none]

/-- The state after that. -/
def failedForkState : ProcSt := ((procSys sampleAddrs).run (.boot 1 2) failedFork).get (by decide +kernel)

/-- The fork has failed and no process has pid 2, but `kill(2)` returns 0 and marks the slot, and `set_priority(2, 5)` returns 60. -/
theorem kill_after_failed_fork : (procSys sampleAddrs).Reachable failedForkState ∧
    (∀ i, (failedForkState.table.proc i).pid = 2 → (failedForkState.table.proc i).state = .unused) ∧
    ((PidCall.kill 2).run failedForkState.table).1 = 0 ∧ (((PidCall.kill 2).run failedForkState.table).2.proc 1).killed = 1 ∧
    ((PidCall.setPriority 2 5).run failedForkState.table).1 = 60 :=
  ⟨Sys.reachable_of_run ⟨1, 2, rfl⟩ (Option.some_get _).symm, by decide +kernel, by decide +kernel, by decide +kernel,
    by decide +kernel⟩

end OsLab
