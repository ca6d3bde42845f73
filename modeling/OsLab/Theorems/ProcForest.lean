import OsLab.Lemmas.LifeRuns

/-!
# The process forest

The pids in use are positive and distinct, and every process has a live parent with a smaller pid, so the parents of any
process lead to init. This holds while `allocproc` has not run through the positive pids, in every run in which `waitx` is
given user addresses; with an address of the process table it can give init the pid 0 (`waitx_unpids_init`).
-/

namespace OsLab

/-- The process can run, sleep, or be reaped. -/
def Started (p : Proc) : Prop := p.state = .runnable ∨ p.state = .running ∨ p.state = .sleeping ∨ p.state = .zombie

/-- The process can act: it is neither `UNUSED` nor `ZOMBIE`. -/
def Alive (p : Proc) : Prop := p.state ≠ .unused ∧ p.state ≠ .zombie

namespace ProcForestAux

open LifeAux

theorem phase_of_started {p : Proc} (h : Started p) : p.life.phase = .live ∨ p.life.phase = .zombie := by
  rcases h with h | h | h | h <;> simp [Proc.life, h, ProcState.phase]

theorem alive_of_live {p : Proc} (h : p.life.phase = .live) : Alive p := by
  constructor <;> intro hs <;> simp [Proc.life, hs, ProcState.phase] at h

theorem phase_of_used {p : Proc} (h : p.state ≠ .unused) : p.life.phase ≠ .free := by
  intro hf
  cases hs : p.state <;> simp [Proc.life, hs, ProcState.phase] at hf h

/-- While the pids have not run out, the instance `n` has pid `n + 1`. -/
theorem pid_eq {v : LifeSt} (hF : (forest v).Inv) (hI : LifeInv v) (hn : v.allocs < 2 ^ 31 - 1) {i : Slot}
    (hi : (v.life i).phase ≠ .free) : (v.life i).pid = v.inst i + 1 := by
  have hlt : v.inst i < v.allocs := hF.instLt i hi
  rw [hI.pid i hi]
  exact int32_of_lt (by omega) (by omega)

end ProcForestAux

open LifeAux ProcForestAux

/-- In every state of a run whose `waitx` calls are given user addresses, while `allocproc` has succeeded fewer than
2^31 - 1 times: the pids of the slots in use are positive and distinct; every process other than init has a parent that is
neither `UNUSED` nor `ZOMBIE` and has a smaller pid; and following the parents, through such processes only, leads to
init. -/
theorem process_forest (A : KernelAddrs) (s : ProcSt) (h : (procSys A).Reach UserWaitx s) (hn : s.allocs < 2 ^ 31 - 1) :
    (∀ i, (s.table.proc i).state ≠ .unused → 0 < (s.table.proc i).pid) ∧
    (∀ i j, (s.table.proc i).state ≠ .unused → (s.table.proc j).state ≠ .unused →
      (s.table.proc i).pid = (s.table.proc j).pid → i = j) ∧
    (∀ i, Started (s.table.proc i) → i ≠ s.table.initproc →
      ∃ j, (s.table.proc i).parent = some j ∧ Alive (s.table.proc j) ∧ (s.table.proc j).pid < (s.table.proc i).pid) ∧
    (∀ i, Started (s.table.proc i) →
      Relation.ReflTransGen (fun i j => (s.table.proc i).parent = some j ∧ Alive (s.table.proc j)) i s.table.initproc) := by
  have hlife : lifeSys.Reach (fun _ _ => True) (view s) := view_reach (fun _ _ => id) (fun _ _ _ _ _ => trivial) h
  have hF := forest_inv hlife
  have hI := lifeInv_of_reach hlife
  have hpid : ∀ i, (s.table.proc i).life.phase ≠ .free → (s.table.proc i).pid = s.inst i + 1 :=
    fun i hi => pid_eq hF hI hn hi
  refine ⟨fun i hi => ?_, fun i j hi hj he => ?_, fun i hi hne => ?_, fun i hi => ?_⟩
  · rw [hpid i (phase_of_used hi)]
    omega
  · rw [hpid i (phase_of_used hi), hpid j (phase_of_used hj)] at he
    exact hF.instInj i j (phase_of_used hi) (phase_of_used hj) (by show s.inst i = s.inst j; omega)
  · obtain ⟨j, hpar, hlive, hlt⟩ := hF.parentLive i (phase_of_started hi) hne
    have hj : (s.table.proc j).life.phase = .live := hlive
    have hi' : (s.table.proc i).life.phase ≠ .free := by
      rcases phase_of_started hi with h | h <;> simp [h]
    have hlt : s.inst j < s.inst i := hlt
    refine ⟨j, hpar, alive_of_live hj, ?_⟩
    rw [hpid j (by simp [hj]), hpid i hi']
    omega
  · exact Relation.ReflTransGen.mono (fun a b hab => ⟨hab.1, alive_of_live hab.2⟩) i _
      (hF.reaches_root i (phase_of_started hi))

/-- With one child, a zombie: its parent is alive and has a smaller pid. -/
theorem process_forest_zombieState :
    zombieState.allocs = 2 ∧ Started (zombieState.table.proc 1) ∧
      ∃ j, (zombieState.table.proc 1).parent = some j ∧ Alive (zombieState.table.proc j) ∧
        (zombieState.table.proc j).pid < (zombieState.table.proc 1).pid := by
  have hallocs : zombieState.allocs = 2 := by decide +kernel
  have hstarted : Started (zombieState.table.proc 1) := Or.inr (Or.inr (Or.inr (by decide +kernel)))
  have hx := process_forest sampleAddrs zombieState zombieState_reach (by rw [hallocs]; decide)
  exact ⟨hallocs, hstarted, hx.2.2.1 1 hstarted (by decide +kernel)⟩

/-- The address of `ptable.proc[0].pid`, as an argument. -/
def initPidAddr : Int := 0x80112d54 + 16 - 2 ^ 32

/-- The child has exited, and init calls `waitx` with that address for the wait time. -/
def unpidRun : Option ProcSt :=
  (procSys sampleAddrs).run (.boot 1 2) (childExits ++ [.waitx 0 (some initPidAddr) (some 0)])

/-- The state that run ends in. -/
def unpidState : ProcSt := unpidRun.get (by decide +kernel)

/-- init is running and has pid 0: its own `waitx(&ptable.proc[0].pid, 0)` has stored the wait time of the child there. -/
theorem waitx_unpids_init :
    (procSys sampleAddrs).Reachable unpidState ∧ unpidState.allocs < 2 ^ 31 - 1 ∧
      (unpidState.table.proc 0).state = .running ∧ (unpidState.table.proc 0).pid = 0 := by
  have hrun : unpidRun = some unpidState := (Option.some_get _).symm
  exact ⟨Sys.reachable_of_run ⟨1, 2, rfl⟩ hrun, by decide +kernel, by decide +kernel, by decide +kernel⟩

end OsLab
