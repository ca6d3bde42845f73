import OsLab.Lemmas.LifeRuns

/-!
# Born killed

`kill` looks for the pid in every slot, used or not, and `allocproc` does not clear `killed`. So a mark that is put on an
unused slot, or that a fork leaves on the slot it gives up, stays there for the slot's next process
(`fork_born_killed`). In runs where neither happens a child is published unmarked, unless it was killed by its own pid while
it was being made.
-/

namespace OsLab

/-- `kill(pid)` does not find an unused slot. -/
def FindsUsed (s : ProcSt) (pid : Int) : Prop := ∀ i, slotOfPid pid s.table = some i → (s.table.proc i).state ≠ .unused

/-- The condition on the steps: `waitx` is given user addresses, `kill` and `sigkill` find no unused slot, and a fork does
not give up a child that has been killed. -/
def NoStrayMark (s : ProcSt) (a : ProcAct) : Prop :=
  UserWaitx s a ∧
  match a with
  | .kill _ (some pid) => FindsUsed s pid
  | .sigkill _ (some pid) => FindsUsed s pid
  | .forkStack p none => ∀ np prio, s.pc p = .forkStack np prio → (s.table.proc np).killed = 0
  | .forkCopy p none => ∀ np prio, s.pc p = .forkCopy np prio → (s.table.proc np).killed = 0
  | _ => True

namespace BornKilledAux

open LifeAux

/-- A slot is free exactly when it is unused. -/
theorem phase_eq_free {p : Proc} (h : p.life.phase = .free) : p.state = .unused := by
  unfold Proc.life at h
  cases hs : p.state <;> simp [hs, ProcState.phase] at h
  rfl

/-- The condition, from a distance. -/
theorem killOk_of_comes {s : ProcSt} {a : ProcAct} {b : LifeAct} (hok : NoStrayMark s a) (hb : Comes s a b) :
    KillOk (view s) b := by
  obtain ⟨-, hok⟩ := hok
  cases b with
  | kill pid i =>
    obtain ⟨⟨p, rfl | rfl⟩, hs⟩ := hb
    · exact fun h => hok i hs (phase_eq_free h)
    · exact fun h => hok i hs (phase_eq_free h)
  | noStack p i | noSpace p i f =>
    obtain ⟨rfl, prio, hp⟩ := hb
    exact hok i prio hp
  | _ => trivial

end BornKilledAux

open LifeAux BornKilledAux

/-- In every run whose steps meet the condition, a child that `fork` or `fork2` makes runnable is not marked as killed,
unless `kill` or `sigkill` has been called with its pid since the pid was allocated. -/
theorem fork_not_born_killed (A : KernelAddrs) (s : ProcSt) (h : (procSys A).Reach NoStrayMark s) (p : Slot) (s' : ProcSt)
    (hst : procStep A s (.forkPublish p) = some s') :
    ∃ np, s.pc p = .forkPublish np ∧ (s'.table.proc np).state = .runnable ∧
      ((s'.table.proc np).killed = 0 ∨ killedSince (s.inst np) (s'.table.proc np).pid s.log = true) := by
  have hlife : lifeSys.Reach KillOk (view s) := view_reach (fun _ _ hok => hok.1) (fun _ _ _ => killOk_of_comes) h
  have hkill := killInv_of_reach hlife
  cases procMoves_of_procStep hst with
  | turn hw => cases hw
  | refused ha => rcases ha with ⟨b, hb⟩ | ⟨b, c, hb⟩ | ⟨b, hb⟩ <;> cases hb
  | @publish _ np hp =>
    have hembryo := ((forest_inv hlife).makesLive p np (makes_iff.mpr (Or.inr (Or.inr (place_of hp))))).2.1
    refine ⟨np, hp, by simp [forkPublish, Table.modify], ?_⟩
    simp only [forkPublish, Table.modify, Function.update_self]
    by_cases hk : (s.table.proc np).killed = 0
    · exact Or.inl hk
    · exact Or.inr (hkill.embryo np hembryo hk)

/-- init is about to publish a child. -/
def aboutToPublish : List ProcAct := [.dispatch 0, .fork 0, .forkStack 0 (some 3), .forkCopy 0 (some 4)]

/-- The state in which it is. -/
def unmarkedState : ProcSt := ((procSys sampleAddrs).run (.boot 1 2) aboutToPublish).get (by decide +kernel)

/-- The child of that run starts unmarked. -/
theorem fork_not_born_killed_plain :
    (procStep sampleAddrs unmarkedState (.forkPublish 0)).isSome = true ∧
      ∀ s', procStep sampleAddrs unmarkedState (.forkPublish 0) = some s' →
        ∃ np, (s'.table.proc np).state = .runnable ∧
          ((s'.table.proc np).killed = 0 ∨
            killedSince (unmarkedState.inst np) (s'.table.proc np).pid unmarkedState.log = true) := by
  refine ⟨by decide +kernel, fun s' hst => ?_⟩
  have hreach : (procSys sampleAddrs).Reach NoStrayMark unmarkedState := by
    refine Sys.Reach.run (.init ⟨1, 2, rfl⟩) ?_ (Option.some_get _).symm
    simp [aboutToPublish, NoStrayMark, UserWaitx]
  obtain ⟨np, -, hrun, hk⟩ := fork_not_born_killed sampleAddrs unmarkedState hreach 0 s' hst
  exact ⟨np, hrun, hk⟩

/-- init calls `kill(0)` and then forks. -/
def killThenFork : List ProcAct := .dispatch 0 :: .kill 0 (some 0) :: aboutToPublish.tail ++ [.forkPublish 0]

/-- The state that run ends in. -/
def bornKilledState : ProcSt := ((procSys sampleAddrs).run (.boot 1 2) killThenFork).get (by decide +kernel)

/-- The child in slot 1, with pid 2, is runnable and marked as killed, and nobody has killed pid 2: `kill(0)` had marked the
unused slot. -/
theorem fork_born_killed :
    (procSys sampleAddrs).Reachable bornKilledState ∧ (bornKilledState.table.proc 1).state = .runnable ∧
      (bornKilledState.table.proc 1).pid = 2 ∧ (bornKilledState.table.proc 1).killed = 1 ∧
      .killCall 2 ∉ bornKilledState.log ∧ .published 1 2 1 ∈ bornKilledState.log ∧
      killedSince (bornKilledState.inst 1) 2 bornKilledState.log = false :=
  ⟨Sys.reachable_of_run ⟨1, 2, rfl⟩ (Option.some_get _).symm, by decide +kernel, by decide +kernel, by decide +kernel,
    by decide +kernel, by decide +kernel, by decide +kernel⟩

end OsLab
