import OsLab.Lib.Run
import Mathlib.Data.Fintype.Basic

/-!
# The locks that are initialised on first use

`mutex_table_lock` and `queue_list_lock` (`sysproc.c`) are not initialised at boot: every call over their tables begins with
`mutex_table_init` or `queue_table_initialize`, which calls `initlock` unless a flag says that this has been done. No lock is
held there, so the test of the flag, the `initlock` and the setting of the flag are three steps, and other CPUs may come in
between. `lazySys` interleaves these steps of any number of CPUs with the `acquire` and `release` of `spinlock.c` that follow.
-/

namespace OsLab

/-- `struct spinlock`: the lock word and the CPU that holds it. -/
structure Spinlock (C : Type*) where
  locked : Bool
  cpu : Option C
  deriving DecidableEq

namespace Spinlock

variable {C : Type*} [DecidableEq C]

/-- `initlock`. -/
def initlock : Spinlock C := ⟨false, none⟩

/-- `holding`. -/
def holding (lk : Spinlock C) (c : C) : Bool := lk.locked && lk.cpu == some c

/-- What a call of `acquire` or `release` comes to. -/
inductive Result (C : Type*) where
  | ok (lk : Spinlock C)
  | spin
  | panic

/-- `acquire` by the CPU `c`, up to its `xchg`. -/
def acquire (lk : Spinlock C) (c : C) : Result C :=
  if lk.holding c then .panic else if lk.locked then .spin else .ok ⟨true, some c⟩

/-- `release` by the CPU `c`. -/
def release (lk : Spinlock C) (c : C) : Result C := if !lk.holding c then .panic else .ok ⟨false, none⟩

end Spinlock

/-- The two tables that have such a lock. -/
inductive LazyTable where
  | mutexes
  | queues
  deriving DecidableEq, Repr

/-- Where a CPU is in a call over one of the tables. -/
inductive LazyPc where
  /-- In none. -/
  | outside
  /-- In the initialisation, with the flag found unset. -/
  | initing (l : LazyTable)
  /-- In the initialisation, after `initlock`. -/
  | marking (l : LazyTable)
  /-- Before `acquire`. -/
  | acquiring (l : LazyTable)
  /-- Between `acquire` and `release`. -/
  | inside (l : LazyTable)
  deriving DecidableEq, Repr

/-- The flags, the locks and the CPUs. -/
structure LazySt (C : Type*) where
  /-- `mutex_table_inited` and `queue_list_initialized`. -/
  inited : LazyTable → Bool
  /-- `mutex_table_lock` and `queue_list_lock`. -/
  lock : LazyTable → Spinlock C
  pc : C → LazyPc
  panicked : Bool

/-- The state at boot: static data, all zero. -/
def LazySt.boot {C : Type*} : LazySt C :=
  { inited := fun _ => false, lock := fun _ => .initlock, pc := fun _ => .outside, panicked := false }

/-- The steps of the CPUs. -/
inductive LazyAct (C : Type*) where
  | mutexTableInit (c : C)
  | queueTableInitialize (c : C)
  | initlock (c : C)
  | setFlag (c : C)
  | acquire (c : C)
  | release (c : C)

section

variable {C : Type*} [DecidableEq C]

namespace LazySt

/-- A CPU put at a place of the code. -/
def setPc (s : LazySt C) (c : C) (x : LazyPc) : LazySt C := { s with pc := Function.update s.pc c x }

/-- What a call of `acquire` or `release` of the lock `l` leaves: a panic stops the machine. -/
def after (s : LazySt C) (c : C) (l : LazyTable) (x : LazyPc) : Spinlock.Result C → Option (LazySt C)
  | .ok lk => some (({ s with lock := Function.update s.lock l lk } : LazySt C).setPc c x)
  | .spin => none
  | .panic => some { s with panicked := true }

/-- The test of the flag, with which every call over the table begins. -/
def testFlag (s : LazySt C) (l : LazyTable) (c : C) : Option (LazySt C) :=
  if s.pc c = .outside then some (s.setPc c (if s.inited l then .acquiring l else .initing l)) else none

/-- `mutex_table_init`, up to the test. -/
def mutexTableInit (s : LazySt C) (c : C) : Option (LazySt C) := s.testFlag .mutexes c

/-- `queue_table_initialize`, up to the test. -/
def queueTableInitialize (s : LazySt C) (c : C) : Option (LazySt C) := s.testFlag .queues c

end LazySt

/-- One step of a machine that has not panicked: `none` when the CPU is not at a place where it could take it, or spins. -/
def lazyMove (s : LazySt C) : LazyAct C → Option (LazySt C)
  | .mutexTableInit c => s.mutexTableInit c
  | .queueTableInitialize c => s.queueTableInitialize c
  | .initlock c =>
    match s.pc c with
    | .initing l => some (({ s with lock := Function.update s.lock l .initlock } : LazySt C).setPc c (.marking l))
    | _ => none
  | .setFlag c =>
    match s.pc c with
    | .marking l => some (({ s with inited := Function.update s.inited l true } : LazySt C).setPc c (.acquiring l))
    | _ => none
  | .acquire c =>
    match s.pc c with
    | .acquiring l => s.after c l (.inside l) ((s.lock l).acquire c)
    | _ => none
  | .release c =>
    match s.pc c with
    | .inside l => s.after c l .outside ((s.lock l).release c)
    | _ => none

/-- The calls of any number of CPUs, in any order of their steps. -/
def lazySys : Sys (LazySt C) (LazyAct C) where
  init s := s = .boot
  step s a := if s.panicked then none else lazyMove s a

/-- No CPU is between its test of the flag of `l`, found unset, and its setting of the flag. -/
def LazySt.Settled (s : LazySt C) (l : LazyTable) : Prop := ∀ c, s.pc c ≠ .initing l ∧ s.pc c ≠ .marking l

/-- A CPU tests a flag only when no CPU is in the middle of the initialisation. -/
def InitAlone (s : LazySt C) : LazyAct C → Prop
  | .mutexTableInit _ => s.Settled .mutexes
  | .queueTableInitialize _ => s.Settled .queues
  | _ => True

instance [Fintype C] (s : LazySt C) (a : LazyAct C) : Decidable (InitAlone s a) :=
  match a with
  | .mutexTableInit _ => inferInstanceAs (Decidable (∀ _, _ ∧ _))
  | .queueTableInitialize _ => inferInstanceAs (Decidable (∀ _, _ ∧ _))
  | .initlock _ => inferInstanceAs (Decidable True)
  | .setFlag _ => inferInstanceAs (Decidable True)
  | .acquire _ => inferInstanceAs (Decidable True)
  | .release _ => inferInstanceAs (Decidable True)

end

end OsLab
