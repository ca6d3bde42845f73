import OsLab.Lemmas.ProcCases

/-!
# No exit is lost

A process that sleeps in a wait has no zombie to wait for. Whoever dies wakes its parent in the same critical section, and
passes its zombies to init with a wakeup of init; a wait goes to sleep only after a scan that has found none.
-/

namespace OsLab

namespace LostExitAux

open LifeAux

/-- Whoever sleeps in a wait sleeps on its own slot, and there is no zombie for it. -/
def NoLostExit (s : ProcSt) : Prop :=
  ∀ p w, s.pc p = .waiting w → (s.table.proc p).state = .sleeping →
    (s.table.proc p).chan = some (.proc p) ∧ ∀ i, (s.table.proc i).state = .zombie → w.mine p (s.table.proc i) = false

/-- Which children a call waits for depends on their parent and pid. -/
theorem mine_congr {w : WaitCall} {cur : Slot} {p p' : Proc} (hpar : p'.parent = p.parent) (hpid : p'.pid = p.pid) :
    w.mine cur p' = w.mine cur p := by
  cases w <;> simp only [WaitCall.mine, hpar, hpid]

theorem phase_zombie {p : Proc} : p.life.phase = .zombie ↔ p.state = .zombie := by
  cases h : p.state <;> simp [Proc.life, h, ProcState.phase]

section

variable {A : KernelAddrs} {s s' : ProcSt} {a : ProcAct}

/-- A zombie that is there after a step other than an exit was there before it, for the same waits. -/
theorem zombie_kept (hpc : PcOk s) (hF : (forest (view s)).Inv) (hok : UserWaitx s a) (h : procStep A s a = some s')
    (hx : ∀ p, a ≠ .exit p) {i : Slot} (hz : (s'.table.proc i).state = .zombie) :
    (s.table.proc i).state = .zombie ∧ ∀ w p, WaitCall.mine w p (s'.table.proc i) = w.mine p (s.table.proc i) := by
  have hz' : ((view s').life i).phase = .zombie := phase_zombie.mpr hz
  rcases procStep_view hpc hok h with he | ⟨b, hb, hst⟩
  · rw [he] at hz'
    have hlife : (s'.table.proc i).life = (s.table.proc i).life := congrFun (congrArg LifeSt.life he) i
    exact ⟨phase_zombie.mp hz', fun w p => mine_congr (congrArg Life.parent hlife) (congrArg Life.pid hlife)⟩
  · have hnot : ∀ p, b ≠ .exit p := by
      rintro p rfl
      exact hx p hb
    obtain ⟨hzo, hpar, hpid⟩ := zombie_old hF hst hnot hz'
    exact ⟨phase_zombie.mp hzo, fun w p => mine_congr hpar hpid⟩

/-- Sleepers that were asleep before, and zombies that were there before, lose nothing. -/
theorem NoLostExit.frame (hI : NoLostExit s) (hwait : ∀ p w, s'.pc p = .waiting w → s.pc p = .waiting w)
    (hsleep : ∀ p, (s'.table.proc p).state = .sleeping →
      (s.table.proc p).state = .sleeping ∧ (s'.table.proc p).chan = (s.table.proc p).chan)
    (hzombie : ∀ i, (s'.table.proc i).state = .zombie →
      (s.table.proc i).state = .zombie ∧ ∀ w p, WaitCall.mine w p (s'.table.proc i) = w.mine p (s.table.proc i)) :
    NoLostExit s' := by
  intro p w hp hs
  obtain ⟨hs, hc⟩ := hsleep p hs
  obtain ⟨hchan, hnone⟩ := hI p w (hwait p w hp) hs
  refine ⟨hc.trans hchan, fun i hz => ?_⟩
  obtain ⟨hz, hm⟩ := hzombie i hz
  rw [hm]
  exact hnone i hz

/-- A process exits: its parent is awake, and so is init if it has been passed a zombie. -/
theorem NoLostExit.exit {cur : Slot} (hI : NoLostExit s) (hpc : PcOk s) (hF : (forest (view s)).Inv) (hat : s.At cur .exiting) :
    NoLostExit (({ s with table := exitTable cur s.table } : ProcSt).setPc cur .user) := by
  intro p w hp hs
  simp only [ProcSt.setPc] at hp hs ⊢
  replace hp : s.pc p = .waiting w := waits_update (c := .user) (fun _ he => by cases he) hp
  have hpcur : p ≠ cur := by
    rintro rfl
    rw [hat.2] at hp
    cases hp
  have hcalm := asleep_exit hs
  obtain ⟨hchan, hnone⟩ := hI p w hp hcalm.1
  obtain ⟨-, hparent, hpassed⟩ := asleep_exitTable hs hchan
  refine ⟨hcalm.2.trans hchan, fun i hz => ?_⟩
  have hlife := congrFun (life_exitTable cur s.table).1 i
  have hpar := congrArg Life.parent hlife
  have hphase := congrArg Life.phase hlife
  have hpid : ((exitTable cur s.table).proc i).pid = (s.table.proc i).pid := congrArg Life.pid hlife
  rw [Bool.eq_false_iff]
  intro hm
  obtain ⟨hmine, hwants⟩ := (mine_iff w p _).mp hm
  replace hmine := hpar.symm.trans hmine
  dsimp only at hmine
  by_cases hi : i = cur
  · -- the parent of the process that exits is another process, and has been woken
    subst hi
    obtain ⟨j, hj, -, hlt⟩ := hF.parentLive i (Or.inl (live_of_running hat.1)) (hpc.notInit i hat.2)
    have hj' : (s.table.life i).parent = some j := hj
    have hne : (s.table.life i).parent ≠ some i := by
      rw [hj']
      intro he
      cases he
      exact absurd hlt (lt_irrefl _)
    rw [if_neg hne] at hmine
    exact hparent hmine
  · have hz' : (s.table.proc i).state = .zombie := by
      have hph := hphase.symm.trans (phase_zombie.mpr hz)
      dsimp only at hph
      rw [if_neg hi] at hph
      exact phase_zombie.mp hph
    by_cases hchild : (s.table.life i).parent = some cur
    · rw [if_pos hchild] at hmine
      exact hpassed i hchild hz' (Option.some.inj hmine).symm
    · rw [if_neg hchild] at hmine
      have hfalse := hnone i hz'
      rw [Bool.eq_false_iff] at hfalse
      rw [hpid] at hwants
      exact hfalse ((mine_iff w p _).mpr ⟨hmine, hwants⟩)

/-- Every step keeps it. -/
theorem NoLostExit.step (hI : NoLostExit s) (hpc : PcOk s) (hF : (forest (view s)).Inv) (hok : UserWaitx s a)
    (h : procStep A s a = some s') : NoLostExit s' := by
  have hzombie : (∀ p, a ≠ .exit p) → ∀ i, (s'.table.proc i).state = .zombie →
      (s.table.proc i).state = .zombie ∧ ∀ w p, WaitCall.mine w p (s'.table.proc i) = w.mine p (s.table.proc i) :=
    fun hx i hz => zombie_kept hpc hF hok h hx hz
  cases procStep_cases hpc hF hok h with
  | calm table waits inst allocs notExit =>
    exact hI.frame waits (fun p hs => (table.proc p).sleeping hs) (hzombie notExit)
  | tick =>
    exact hI.frame (fun _ _ => id) (fun p hs => ((calm_wakeup1 _ _).proc p).sleeping hs) (hzombie nofun)
  | updateRtime =>
    exact hI.frame (fun _ _ => id) (fun p hs => asleep_updateRtime hs) (hzombie nofun)
  | exit place => exact hI.exit hpc hF place
  | claim free act =>
    rename_i p np prio
    have hx : ∀ q, a ≠ .exit q := by
      rintro q rfl
      rcases act with ha | ⟨n, ha⟩ <;> cases ha
    exact hI.frame (fun _ _ => waits_update nofun) (fun q hs => asleep_allocprocFound hs) (hzombie hx)
  | sleep running place =>
    rename_i p addr
    intro q w hq hs
    have hqp : q ≠ p := by
      rintro rfl
      exact place w hq
    dsimp only at hs ⊢
    rw [sleepOn_of_ne hqp] at hs ⊢
    obtain ⟨hchan, hnone⟩ := hI q w hq hs
    refine ⟨hchan, fun i hz => ?_⟩
    obtain ⟨hz, hm⟩ := hzombie nofun i hz
    rw [hm]
    exact hnone i hz
  | waits table life running none notExit =>
    rename_i p w t
    intro q u hq hs
    by_cases hqp : q = p
    · subst hqp
      have hu : w = u := by simpa [ProcSt.setPc] using hq
      subst hu
      refine ⟨by simp [ProcSt.setPc, sleepOn, Table.modify], fun i hz => ?_⟩
      have hiq : i ≠ q := by
        rintro rfl
        simp [ProcSt.setPc, sleepOn, Table.modify] at hz
      have hsame : (sleepOn q (.proc q) t).proc i = t.proc i := sleepOn_of_ne hiq
      simp only [ProcSt.setPc, hsame] at hz ⊢
      exact none i hz
    · have hq' : s.pc q = .waiting u := by simpa [ProcSt.setPc, hqp] using hq
      have hsame : (sleepOn p (.proc p) t).proc q = t.proc q := sleepOn_of_ne hqp
      simp only [ProcSt.setPc, hsame] at hs
      obtain ⟨hs, hc⟩ := (table.proc q).sleeping hs
      obtain ⟨hchan, hnone⟩ := hI q u hq' hs
      refine ⟨?_, fun i hz => ?_⟩
      · simp only [ProcSt.setPc, hsame]
        exact hc.trans hchan
      · obtain ⟨hz, hm⟩ := hzombie notExit i hz
        rw [hm]
        exact hnone i hz

end

end LostExitAux

open LifeAux LostExitAux

/-- In every state of a run whose `waitx` calls are given user addresses, no process that sleeps in `wait` or `waitx` has a
zombie child, and none that sleeps in `waitpid(n)` has a zombie child with pid `n`. -/
theorem no_lost_exit (A : KernelAddrs) (s : ProcSt) (h : (procSys A).Reach UserWaitx s) (p : Slot)
    (hs : (s.table.proc p).state = .sleeping) :
    (s.pc p = .waiting .wait ∨ (∃ a b, s.pc p = .waiting (.waitx a b)) →
      ∀ i, (s.table.proc i).parent = some p → (s.table.proc i).state ≠ .zombie) ∧
    ∀ n, s.pc p = .waiting (.waitpid n) →
      ∀ i, (s.table.proc i).parent = some p → (s.table.proc i).pid = n → (s.table.proc i).state ≠ .zombie := by
  have hI : NoLostExit s := by
    refine Sys.Reach.invariant_of (J := ProcsOk) (fun t ht => procsOk_of_reach ht) ?_ ?_ h
    · rintro t ⟨k, d, rfl⟩ q w hq
      cases hq
    · exact fun t a t' hJ hI hok hst => hI.step hJ.pc hJ.family hok hst
  refine ⟨fun hp i hpar hz => ?_, fun n hp i hpar hpid hz => ?_⟩
  · rcases hp with hp | ⟨a, b, hp⟩
    · have := (hI p _ hp hs).2 i hz
      simp [WaitCall.mine, hpar] at this
    · have := (hI p _ hp hs).2 i hz
      simp [WaitCall.mine, hpar] at this
  · have := (hI p _ hp hs).2 i hz
    simp [WaitCall.mine, hpar, hpid] at this

/-- init forks a child and waits. -/
def initWaits : List ProcAct :=
  [.dispatch 0, .fork 0, .forkStack 0 (some 3), .forkCopy 0 (some 4), .forkPublish 0, .wait 0]

/-- The state in which init sleeps. -/
def initWaitsState : ProcSt := ((procSys sampleAddrs).run (.boot 1 2) initWaits).get (by decide +kernel)

/-- init sleeps in `wait`, and its child is no zombie. -/
theorem no_lost_exit_init : (initWaitsState.table.proc 0).state = .sleeping ∧ initWaitsState.pc 0 = .waiting .wait ∧
    (initWaitsState.table.proc 1).parent = some 0 ∧ (initWaitsState.table.proc 1).state ≠ .zombie := by
  have hreach : (procSys sampleAddrs).Reach UserWaitx initWaitsState := by
    refine Sys.Reach.run (.init ⟨1, 2, rfl⟩) ?_ (Option.some_get _).symm
    simp [initWaits, UserWaitx]
  have hs : (initWaitsState.table.proc 0).state = .sleeping := by decide +kernel
  have hp : initWaitsState.pc 0 = .waiting .wait := by decide +kernel
  have hpar : (initWaitsState.table.proc 1).parent = some 0 := by decide +kernel
  exact ⟨hs, hp, hpar, (no_lost_exit _ _ hreach 0 hs).1 (Or.inl hp) 1 hpar⟩

/-- The address of `ptable.proc[1].state`, as an argument. -/
def childStateAddr : Int := 0x80112d54 + 140 + 12 - 2 ^ 32

/-- A timer interrupt in the child of init, after which the grandchild runs. -/
def timerTurn : List ProcAct := [.tick, .updateRtime, .yield 1, .dispatch 2]

/-- init waits for its child. The child has a child of its own, which sleeps for four ticks and exits five ticks after its
creation, and calls `waitx` with the address of its own state for the wait time. -/
def strayWait : List ProcAct :=
  initWaits ++ [.dispatch 1, .fork 1, .forkStack 1 (some 5), .forkCopy 1 (some 6), .forkPublish 1] ++ timerTurn ++
    (List.replicate 4 ([.sleep 2 sampleAddrs.ticks, .dispatch 1] ++ timerTurn)).flatten ++
    [.exitClose 2, .exit 2, .dispatch 1, .waitx 1 (some childStateAddr) (some 0)]

/-- The state after that. -/
def strayWaitState : ProcSt := ((procSys sampleAddrs).run (.boot 1 2) strayWait).get (by decide +kernel)

/-- init still sleeps in `wait`, and its child is a zombie: the wait time of the grandchild, 5, has been stored over the state of
the child, and 5 is `ZOMBIE`. -/
theorem waitx_loses_exit : (procSys sampleAddrs).Reachable strayWaitState ∧ (strayWaitState.table.proc 0).state = .sleeping ∧
    strayWaitState.pc 0 = .waiting .wait ∧ (strayWaitState.table.proc 1).parent = some 0 ∧
      (strayWaitState.table.proc 1).state = .zombie :=
  ⟨Sys.reachable_of_run ⟨1, 2, rfl⟩ (Option.some_get _).symm, by decide +kernel, by decide +kernel, by decide +kernel,
    by decide +kernel⟩

end OsLab
