import OsLab.SpinLocks
import Mathlib.Tactic.FinCases

/-!
# The order of the spin locks, and the console

`cons.lock` comes before `ptable.lock` wherever the console wakes or puts to sleep a reader, and every other lock of the
kernel keeps to the same order: the outer locks, then `ptable.lock`, then `kmem.lock`. Two paths do not. `sys_cps` prints
with `ptable.lock` held, and so does the trap handler when a store of `sys_waitx` faults. With either of them two CPUs can
stop for good (`spin_deadlock`); without them no cycle of waiting CPUs is ever reached (`spin_no_deadlock`).
-/

namespace OsLab

namespace ConsoleAux

open LockProg LockMachine

/-- The order: the outer locks, then `ptable.lock`, then `kmem.lock`. -/
def rank : Lock → Nat
  | .ptable => 1
  | .kmem => 2
  | _ => 0

/-- Every entry but `sys_cps` and a faulting `sys_waitx` takes its locks in order and returns with none. -/
theorem check_code (e : KernelEntry) (h1 : e ≠ .cps) (h2 : e ≠ .waitxFault) :
    (spinKernel.code e).check rank spinKernel.hand [] = some [] := by
  cases e with
  | cps => exact absurd rfl h1
  | waitxFault => exact absurd rfl h2
  | consoleread i => simp [spinKernel, KernelEntry.code, SpinLocks.consoleread, SpinLocks.iunlock, SpinLocks.ilock,
      SpinLocks.sleep, SpinLocks.wakeup, block, check, rank]
  | consolewrite i => simp [spinKernel, KernelEntry.code, SpinLocks.consolewrite, SpinLocks.iunlock, SpinLocks.ilock,
      SpinLocks.sleep, SpinLocks.wakeup, block, check, rank]
  | msgsnd q => simp [spinKernel, KernelEntry.code, SpinLocks.msgsnd, SpinLocks.kalloc, SpinLocks.wakeup, block, opt, check,
      rank]
  | msgrcv q => simp [spinKernel, KernelEntry.code, SpinLocks.msgrcv, SpinLocks.kalloc, SpinLocks.sleep, block, opt, check,
      rank]
  | msgctl q => simp [spinKernel, KernelEntry.code, SpinLocks.msgctl, SpinLocks.kalloc, SpinLocks.wakeup, block, opt, check,
      rank]
  | _ => decide

theorem check_scheduler :
    (checkAll rank spinKernel.hand spinKernel.sched [spinKernel.hand]).isSome = true := by decide

/-- The condition on a step: it starts neither `sys_cps` nor a `sys_waitx` whose store faults. -/
def NoPrintUnderPtable {C : Type*} (_ : LockMachine C Lock) (a : C × LockMove KernelEntry) : Prop :=
  a.2.entry ≠ some .cps ∧ a.2.entry ≠ some .waitxFault

theorem ordered_init {C : Type*} [DecidableEq C] [Fintype C] {m : LockMachine C Lock} (h : (spinSys C).init m) :
    m.Ordered rank spinKernel.hand := by
  obtain ⟨hcpu, hparked⟩ := h
  refine ⟨fun c => ?_, fun k hk => ?_⟩
  · rw [hcpu c]
    decide
  · rw [hparked k hk]
    decide

/-- Along every run that meets the condition the machine stays ordered. -/
theorem ordered_reach {C : Type*} [DecidableEq C] [Fintype C] {m : LockMachine C Lock}
    (h : (spinSys C).Reach NoPrintUnderPtable m) : m.Ordered rank spinKernel.hand := by
  refine Sys.Reach.invariant (I := fun s => s.Ordered rank spinKernel.hand) (fun s hs => ordered_init hs)
    (fun s a s' hO hok hst => ?_) h
  obtain ⟨c, a⟩ := a
  refine hO.step check_scheduler (fun e he => check_code e ?_ ?_) hst
  · rintro rfl
    exact hok.1 he
  · rintro rfl
    exact hok.2 he

/-- The lock `l'` is acquired with `l` held: in some state reached, a CPU that holds `l` is at an `acquire` of `l'`. -/
def AcquiredHolding (C : Type*) [DecidableEq C] [Fintype C] (ok : LockMachine C Lock → C × LockMove KernelEntry → Prop)
    (l l' : Lock) : Prop :=
  ∃ m, (spinSys C).Reach ok m ∧ ∃ c, l ∈ (m.cpu c).held ∧ m.Wants c l'

end ConsoleAux

open ConsoleAux

/-- On any number of CPUs and in any order of their steps, as long as no step starts `sys_cps` or a `sys_waitx` whose store
faults: no state reached has a cycle of CPUs each holding a lock that the next is blocked on, and the relation "acquired
while holding" between the locks has no cycle. -/
theorem spin_no_deadlock (C : Type*) [DecidableEq C] [Fintype C] :
    (∀ m, (spinSys C).Reach NoPrintUnderPtable m → ∀ c, ¬Relation.TransGen m.WaitsFor c c) ∧
    ∀ l, ¬Relation.TransGen (AcquiredHolding C NoPrintUnderPtable) l l := by
  refine ⟨fun m hm c => (ordered_reach hm).no_cycle c, fun l => acyclic_of_rank rank ?_ l⟩
  rintro l l' ⟨m, hm, c, hheld, hw⟩
  exact (ordered_reach hm).lt_of_wants hw l hheld

/-- Two CPUs and one process, at boot. -/
def twoCpus : LockMachine (Fin 2) Lock where
  cpu _ := { held := [], todo := SpinLocks.scheduler.drop 2 }
  parked := [[.release .ptable, .user]]

/-- Both CPUs take a keyboard interrupt, and CPU 0 is the first to take `cons.lock`. -/
def contendedMoves : List (Fin 2 × LockMove KernelEntry) :=
  [(0, .intr .consoleintr), (0, .go), (0, .go), (1, .intr .consoleintr), (1, .go)]

/-- Where that run ends. -/
def contendedState : LockMachine (Fin 2) Lock := ((spinSys (Fin 2)).run twoCpus contendedMoves).get (by decide)

theorem twoCpus_init : (spinSys (Fin 2)).init twoCpus :=
  ⟨fun _ => rfl, fun k hk => by simpa [twoCpus] using hk⟩

/-- A run that meets the condition can make a CPU wait, and then there is no cycle. -/
theorem spin_no_deadlock_contended : (spinSys (Fin 2)).Reach NoPrintUnderPtable contendedState ∧
    contendedState.WaitsFor 1 0 ∧ ∀ c, ¬Relation.TransGen contendedState.WaitsFor c c := by
  have hrun : (spinSys (Fin 2)).run twoCpus contendedMoves = some contendedState := (Option.some_get _).symm
  have hok : ∀ a ∈ contendedMoves, a.2.entry ≠ some .cps ∧ a.2.entry ≠ some .waitxFault := by decide
  have hr : (spinSys (Fin 2)).Reach NoPrintUnderPtable contendedState :=
    Sys.Reach.run (.init twoCpus_init) (fun a ha _ => hok a ha) hrun
  exact ⟨hr, ⟨.cons, ⟨_, rfl⟩, by decide⟩, (spin_no_deadlock (Fin 2)).1 _ hr⟩

/-- CPU 0 picks the process, which calls `cps`, prints the header, takes `ptable.lock` and comes to its first line. In
between CPU 1 takes a keyboard interrupt: it takes `cons.lock` once the header is out, and comes to the wakeup of a
reader. -/
def deadlockMoves : List (Fin 2 × LockMove KernelEntry) :=
  [(0, .again), (0, .go), (0, .go), (0, .go), (0, .again), (0, .pick 0), (0, .go), (0, .call .cps),
   (0, .go), (0, .go), (0, .go), (0, .go), (0, .go), (0, .go), (0, .go), (0, .again), (0, .go),
   (1, .intr .consoleintr), (1, .go), (1, .go), (1, .go), (1, .again), (1, .left), (1, .go)]

/-- Where that run ends. -/
def deadlockState : LockMachine (Fin 2) Lock := ((spinSys (Fin 2)).run twoCpus deadlockMoves).get (by decide)

/-- CPU 0 holds `ptable.lock` and waits for `cons.lock`; CPU 1 holds `cons.lock` and waits for `ptable.lock`. Neither will
ever move again. -/
theorem spin_deadlock : (spinSys (Fin 2)).Reachable deadlockState ∧ ∃ c, Relation.TransGen deadlockState.WaitsFor c c := by
  have hrun : (spinSys (Fin 2)).run twoCpus deadlockMoves = some deadlockState := (Option.some_get _).symm
  have h01 : deadlockState.WaitsFor 0 1 := ⟨.cons, ⟨_, rfl⟩, by decide⟩
  have h10 : deadlockState.WaitsFor 1 0 := ⟨.ptable, ⟨_, rfl⟩, by decide⟩
  exact ⟨Sys.reachable_of_run twoCpus_init hrun, 0, .tail (.single h01) h10⟩

end OsLab
