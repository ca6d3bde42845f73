import OsLab.Scheduler
import OsLab.Lemmas.ProcCases

/-!
# Priorities and dispatch

The loop of `scheduler` takes the slots in order and does not look at `priority`. So dispatch follows the priorities exactly as
long as there is nothing to follow: no process has another priority than the default (`dispatch_governed_iff`).
-/

namespace OsLab

namespace SchedAux

open LifeAux

variable {B : Int → Prop} {A : KernelAddrs} {s s' : ProcSt} {t t' : Table} {p' : Proc} {w : WaitCall}

/-- What a step does to a slot, as far as priorities go: the priority stays or gets into `B`, and a slot that comes into use has
one in `B`. -/
structure PrioStep (B : Int → Prop) (p p' : Proc) : Prop where
  prio : p'.priority = p.priority ∨ B p'.priority
  used : p'.state ≠ .unused → p.state ≠ .unused ∨ B p'.priority

/-- The same, for every slot. -/
structure PrioSteps (B : Int → Prop) (t t' : Table) : Prop where
  proc : ∀ i, PrioStep B (t.proc i) (t'.proc i)

theorem PrioStep.refl (p : Proc) : PrioStep B p p := ⟨.inl rfl, .inl⟩

theorem PrioStep.keep {p : Proc} (hp : p'.priority = p.priority) (hu : p'.state ≠ .unused → p.state ≠ .unused) :
    PrioStep B p p' := ⟨.inl hp, fun h => .inl (hu h)⟩

theorem PrioStep.give {p : Proc} (hp : B p'.priority) : PrioStep B p p' := ⟨.inr hp, fun _ => .inr hp⟩

theorem PrioStep.trans {p p'' : Proc} (h : PrioStep B p p') (h' : PrioStep B p' p'') : PrioStep B p p'' := by
  rcases h'.prio with heq | hB
  · refine ⟨heq ▸ h.prio, fun hu => ?_⟩
    rw [heq]
    rcases h'.used hu with hu | hB
    · exact h.used hu
    · exact .inr (heq ▸ hB)
  · exact .give hB

theorem PrioSteps.refl (t : Table) : PrioSteps B t t := ⟨fun _ => .refl _⟩

theorem PrioSteps.trans {t'' : Table} (h : PrioSteps B t t') (h' : PrioSteps B t' t'') : PrioSteps B t t'' :=
  ⟨fun i => (h.proc i).trans (h'.proc i)⟩

theorem prioSteps_modify {i : Slot} {f : Proc → Proc} (h : PrioStep B (t.proc i) (f (t.proc i))) : PrioSteps B t (t.modify i f) := by
  refine ⟨fun j => ?_⟩
  by_cases hj : j = i
  · subst hj
    rwa [modify_proc_self]
  · rw [modify_proc_of_ne _ _ hj]
    exact .refl _

/-! ## The functions of the table -/

theorem prio_wakeup1 (c : Option Chan) (t : Table) : PrioSteps B t (wakeup1 c t) := by
  refine ⟨fun i => ?_⟩
  simp only [wakeup1]
  split
  · rename_i h
    exact .keep rfl fun _ => by rw [h.1]; intro he; cases he
  · exact .refl _

theorem prio_kill (pid : Int) (t : Table) : PrioSteps B t (kill pid t).2 := by
  unfold kill
  split
  · exact .refl t
  · rename_i i _
    dsimp only
    refine prioSteps_modify (.keep rfl fun hu => ?_)
    by_cases hs : (t.proc i).state = .sleeping
    · simp [hs]
    · simpa [hs] using hu

theorem prio_sysKill (a : Arg) (t : Table) : PrioSteps B t (sysKill a t).2 := by
  cases a with
  | none => exact .refl t
  | some pid => exact prio_kill pid t

theorem prio_sysSetPriority {a b : Arg} (hb : ∀ prio, b = some prio → B prio) (t : Table) :
    PrioSteps B t (sysSetPriority a b t).2 := by
  unfold sysSetPriority
  split
  · split
    · exact .refl t
    · split
      · exact .refl t
      · dsimp only
        exact prioSteps_modify (.give (hb _ rfl))
  · exact .refl t

theorem prio_allocprocStack (i : Slot) (k : Option Frame) (t : Table) : PrioSteps B t (allocprocStack i k t) := by
  unfold allocprocStack
  cases k with
  | none => exact prioSteps_modify (.keep rfl fun h => absurd rfl h)
  | some f => exact prioSteps_modify (.keep rfl id)

theorem prio_allocprocFound (h60 : B 60) (i : Slot) (t : Table) : PrioSteps B t (allocprocFound i t) :=
  have h : PrioSteps B t (t.modify i fun p =>
      { p with state := .embryo, pid := t.nextpid, priority := 60, ctime := int32 t.ticks, rtime := 0, etime := 0 }) :=
    prioSteps_modify (.give h60)
  ⟨h.proc⟩

theorem exitTable_priority (cur : Slot) (t : Table) :
    ((exitTable cur t).proc cur).priority = ((exitReparent cur t).proc cur).priority := by
  unfold exitTable
  rw [modify_proc_self]

theorem prio_exitTable {cur : Slot} (hcur : (t.proc cur).state ≠ .unused) : PrioSteps B t (exitTable cur t) := by
  have hre : ∀ t : Table, ∀ i, PrioSteps B t (reparentOne cur t i) := by
    intro t i
    unfold reparentOne
    split
    · have hpar : PrioSteps B t (t.modify i fun p => { p with parent := some t.initproc }) := prioSteps_modify (.keep rfl id)
      dsimp only
      split
      · exact hpar.trans (prio_wakeup1 _ _)
      · exact hpar
    · exact .refl t
  have hfold : ∀ (l : List Slot) (t : Table), PrioSteps B t (l.foldl (reparentOne cur) t) := by
    intro l
    induction l with
    | nil => exact fun t => .refl t
    | cons i l ih => exact fun t => (hre t i).trans (ih _)
  have hexit : PrioSteps B t (exitReparent cur t) := (prio_wakeup1 _ t).trans (hfold slots _)
  refine ⟨fun i => ?_⟩
  by_cases hi : i = cur
  · subst hi
    refine ⟨?_, fun _ => .inl hcur⟩
    rw [exitTable_priority]
    simpa only [exitTable_priority] using (hexit.proc i).prio
  · rw [exitTable_of_ne hi]
    exact hexit.proc i

/-- A wait with addresses in user space frees the slot of the child. -/
theorem prio_reap {base : Nat} {i : Slot} {r : Reaped} (hw : w.UserAddrs) (h : w.reap base i t = some r) : PrioSteps B t r.table := by
  cases w with
  | wait =>
    cases h
    dsimp only [waitReap]
    exact prioSteps_modify (.keep rfl fun h => absurd rfl h)
  | waitpid pid =>
    cases h
    dsimp only [waitpidReap]
    exact prioSteps_modify (.keep rfl fun h => absurd rfl h)
  | waitx a b =>
    simp only [WaitCall.reap, waitxReap, storeInt, if_pos hw.1, if_pos hw.2, Option.bind_some, Option.map_some] at h
    cases h
    dsimp only
    exact prioSteps_modify (.keep rfl fun h => absurd rfl h)

/-! ## The steps of the processes -/

/-- A place of the code at which nothing is asked for, and whose child, if it has one, has a priority in `B`. -/
structure PcOkay (B : Int → Prop) (t : Table) (c : ProcPc) : Prop where
  child : ∀ np, c.child = some np → B (t.proc np).priority
  asked : ∀ a, c.asked = some a → B a
  addrs : ∀ w, c = .waiting w → w.UserAddrs

theorem PcOkay.plain {c : ProcPc} (hchild : c.child = none) (hasked : c.asked = none) (hw : ∀ w, c ≠ .waiting w) : PcOkay B t c where
  child np h := by
    rw [hchild] at h
    cases h
  asked a h := by
    rw [hasked] at h
    cases h
  addrs w h := absurd h (hw w)

theorem pcOkay_user : PcOkay B t .user := .plain rfl rfl nofun

/-- A step that keeps the places of the processes. -/
theorem prioOk_table (h : PrioOk B s) (ht : PrioSteps B s.table t) : PrioOk B { s with table := t } where
  table i hu := by
    rcases (ht.proc i).prio with heq | hB
    · rcases (ht.proc i).used hu with hu | hB
      · exact (congrArg B heq).mpr (h.table i hu)
      · exact hB
    · exact hB
  child p np hp := by
    rcases (ht.proc np).prio with heq | hB
    · exact (congrArg B heq).mpr (h.child p np hp)
    · exact hB
  asked := h.asked
  addrs := h.addrs

/-- A process put at a place of the code. -/
theorem prioOk_setPc {p : Slot} {c : ProcPc} (h : PrioOk B s) (hc : PcOkay B s.table c) : PrioOk B (s.setPc p c) := by
  have hpc : ∀ q, PcOkay B s.table ((s.setPc p c).pc q) := by
    intro q
    by_cases hq : q = p
    · subst hq
      simpa [ProcSt.setPc] using hc
    · simpa [ProcSt.setPc, hq] using ⟨h.child q, h.asked q, h.addrs q⟩
  exact ⟨h.table, fun q => (hpc q).child, fun q => (hpc q).asked, fun q => (hpc q).addrs⟩

/-- The instances and the record do not matter. -/
theorem prioOk_congr (h : PrioOk B s) (ht : s'.table = s.table) (hpc : s'.pc = s.pc) : PrioOk B s' := by
  refine ⟨?_, ?_, ?_, ?_⟩
  · rw [ht]
    exact h.table
  · rw [ht, hpc]
    exact h.child
  · rw [hpc]
    exact h.asked
  · rw [hpc]
    exact h.addrs

theorem prioOk_waitTurn {cur : Slot} (h : PrioOk B s) (hw : w.UserAddrs) (hcur : (s.table.proc cur).state ≠ .unused)
    (hst : s.waitTurn A cur w = some s') : PrioOk B s' := by
  unfold ProcSt.waitTurn at hst
  split at hst
  · cases hst
  · cases hst
    exact prioOk_setPc h pcOkay_user
  · cases hst
    refine prioOk_setPc (prioOk_table h (prioSteps_modify (.keep rfl fun _ => hcur))) ⟨nofun, nofun, fun w' hw' => ?_⟩
    cases hw'
    exact hw
  · rename_i i r hpass
    have hreap : w.reap A.procs i s.table = some r := by
      unfold waitPass at hpass
      split at hpass
      · obtain ⟨r', hr', hpass⟩ := Option.map_eq_some_iff.mp hpass
        cases hpass
        exact hr'
      · split at hpass <;> cases hpass
    split at hst
    · cases hst
      exact prioOk_setPc (prioOk_congr (prioOk_table h (prio_reap hw hreap)) rfl rfl) pcOkay_user
    · cases hst

theorem prioOk_beginFork {p : Slot} {prio : Option Int} (h60 : B 60) (h : PrioOk B s) (hprio : ∀ a, prio = some a → B a) :
    PrioOk B (s.beginFork p prio) := by
  unfold ProcSt.beginFork
  split
  · exact h
  · rename_i np t hclaim
    have ht : t = allocprocFound np s.table := by
      unfold allocprocClaim at hclaim
      split at hclaim
      · cases hclaim
      · cases hclaim
        rfl
    subst ht
    have htable := prioOk_table h (prio_allocprocFound h60 np s.table)
    refine prioOk_congr (prioOk_setPc (p := p) (c := .forkStack np prio) htable ⟨?_, hprio, nofun⟩) rfl rfl
    intro np' hnp
    cases hnp
    have hfound : ((allocprocFound np s.table).proc np).priority = 60 := by
      unfold allocprocFound
      simp [Table.modify]
    exact (congrArg B hfound).mpr h60

/-- What `set_priority` and `fork2` are called with is in `B`, and `waitx` writes to user space. -/
def CallsOk (B : Int → Prop) (s : ProcSt) : ProcAct → Prop
  | .setPriority _ _ (some a) => B a
  | .fork2 _ (some a) => B a
  | a => UserWaitx s a

theorem userWaitx_of_calls {a : ProcAct} {p : Slot} (h : WaitsIn s a p w t) (hcalls : CallsOk B s a) : UserWaitx s a := by
  cases h with
  | waitx => exact hcalls
  | _ => trivial

/-- The table at the turn of a wait. -/
theorem prioOk_waitsIn {a : ProcAct} {p : Slot} (h : PrioOk B s) (hw : WaitsIn s a p w t) : PrioOk B { s with table := t } := by
  cases hw with
  | dispatch hr => exact prioOk_table h (prioSteps_modify (.keep rfl fun _ => by simp [hr]))
  | _ => exact h

/-- Every step keeps the priorities in `B`. -/
theorem prioOk_step {a : ProcAct} (h60 : B 60) (h : PrioOk B s) (hcalls : CallsOk B s a) (hst : procStep A s a = some s') :
    PrioOk B s' := by
  cases procMoves_of_procStep hst with
  | turn hw hturn =>
    exact prioOk_waitTurn (prioOk_waitsIn h hw) (waitsIn_userAddrs h.addrs (userWaitx_of_calls hw hcalls) hw)
      (by simp [waitsIn_running hw]) hturn
  | dispatch hr | yield hr => exact prioOk_table h (prioSteps_modify (.keep rfl fun _ => by simp [hr]))
  | @sleep p _ hp =>
    have hrun : (s.table.proc p).state = .running := hp.elim And.left And.left
    exact prioOk_table h (prioSteps_modify (.keep rfl fun _ => by simp [hrun]))
  | wakeup => exact prioOk_table h (prio_wakeup1 _ _)
  | tick =>
    have htick : PrioSteps B s.table { s.table with ticks := u32 (s.table.ticks + 1) } := ⟨fun _ => .refl _⟩
    exact prioOk_table h (htick.trans (prio_wakeup1 _ _))
  | updateRtime =>
    refine prioOk_table h ⟨fun i => ?_⟩
    simp only [updateRtime]
    split
    · exact .keep rfl id
    · exact .refl _
  | fork => exact prioOk_beginFork h60 h (fun _ he => by cases he)
  | fork2 =>
    refine prioOk_beginFork h60 h fun a ha => ?_
    cases ha
    exact hcalls
  | refused => exact h
  | @noStack p np => exact prioOk_congr (prioOk_setPc (p := p) (prioOk_table h (prio_allocprocStack np none s.table)) pcOkay_user) rfl rfl
  | @stack p np prio k hp =>
    have htable := prioOk_table h (prio_allocprocStack np (some k) s.table)
    refine prioOk_congr (prioOk_setPc (p := p) (c := .forkCopy np prio) htable ⟨?_, ?_, (fun _ he => by cases he)⟩) rfl rfl
    · intro np' hnp
      cases hnp
      exact htable.child p np (by rw [hp]; rfl)
    · exact fun a ha => h.asked p a (by rw [hp]; exact ha)
  | @noSpace p np =>
    have htable := prioOk_table h (prioSteps_modify (i := np)
      (f := fun p => { p with pgdir := none, kstack := none, state := .unused }) (.keep rfl fun h => absurd rfl h))
    exact prioOk_congr (prioOk_setPc (p := p) htable pcOkay_user) rfl rfl
  | @space p np prio d t hp ht =>
    have hcopy : PrioSteps B s.table (forkCopy p np d s.table) := by
      unfold forkCopy
      exact prioSteps_modify (.keep rfl id)
    have hsteps : PrioSteps B s.table t := by
      rcases ht with ⟨-, rfl⟩ | ⟨n, rfl, rfl⟩
      · exact hcopy
      · exact hcopy.trans (prioSteps_modify (.give (h.asked p n (by rw [hp]; rfl))))
    have htable := prioOk_table h hsteps
    refine prioOk_congr (prioOk_setPc (p := p) (c := .forkPublish np) htable ⟨?_, (fun _ he => by cases he), fun _ he => by cases he⟩)
      rfl rfl
    intro np' hnp
    cases hnp
    exact htable.child p np (by rw [hp]; rfl)
  | @publish p np hp =>
    -- the slot may be anything as far as the table goes, but the place of its maker says what its priority is
    have hchild : B (s.table.proc np).priority := h.child p np (by rw [hp]; rfl)
    have htable := prioOk_table h (prioSteps_modify (i := np) (f := fun p => { p with state := .runnable }) (.give hchild))
    exact prioOk_congr (prioOk_setPc (p := p) htable pcOkay_user) rfl rfl
  | exitClose => exact prioOk_setPc (prioOk_table h (prioSteps_modify (.keep rfl id))) (.plain rfl rfl fun _ he => by cases he)
  | exit hp => exact prioOk_setPc (prioOk_table h (prio_exitTable (by simp [hp.1]))) pcOkay_user
  | @kill _ pid | @sigkill _ pid => exact prioOk_congr (prioOk_table h (prio_sysKill pid s.table)) rfl rfl
  | setPriority =>
    refine prioOk_table h (prio_sysSetPriority (fun prio hb => ?_) s.table)
    subst hb
    exact hcalls
  | fault => exact prioOk_table h (prioSteps_modify (.keep rfl id))

/-! ## The loops of the processors -/

variable {K : KernelAddrs} {P : Int → Prop}

/-- A dispatch passes no priority. -/
theorem prioOk_schedStep {s s' : SchedSt} {a : SchedAct} (h : PrioOk (OrDefault P) s.procs) (hcalls : PrioCalls P s a)
    (hst : schedStep K s a = some s') : PrioOk (OrDefault P) s'.procs := by
  cases a with
  | acquire c =>
    obtain ⟨-, rfl⟩ := of_guard hst
    exact h
  | turn c =>
    simp only [schedStep] at hst
    split at hst
    · split at hst
      · split at hst
        · obtain ⟨t, ht, rfl⟩ := Option.map_eq_some_iff.mp hst
          exact prioOk_step (.inl rfl) h (by trivial) ht
        · cases hst
          exact h
      · cases hst
        exact h
    · cases hst
  | proc a =>
    have hproc : ∃ t, procStep K s.procs a = some t ∧ s'.procs = t := by
      cases a with
      | dispatch p => cases hst
      | _ =>
        simp only [schedStep, Option.ite_none_right_eq_some] at hst
        obtain ⟨t, ht, rfl⟩ := Option.map_eq_some_iff.mp hst.2
        exact ⟨t, ht, rfl⟩
    obtain ⟨t, ht, rfl⟩ := hproc
    refine prioOk_step (.inl rfl) h ?_ ht
    cases a with
    | setPriority p a b | fork2 p b => cases b <;> exact hcalls
    | _ => exact hcalls

theorem prioOk_of_reach {s : SchedSt} (h : (schedSys K P).Reach (PrioCalls P) s) : PrioOk (OrDefault P) s.procs :=
  h.invariant (I := fun s => PrioOk (OrDefault P) s.procs) (fun _ hi => hi) fun _ _ _ hI hok hst => prioOk_schedStep hI hok hst

/-- Two `RUNNABLE` processes, and nothing else. -/
def twoRunnable (a b : Int) : SchedSt where
  procs :=
    { ProcSt.boot 1 2 with
      table := { Table.zero with
        proc := fun i =>
          if i = 0 then { Proc.zero with state := .runnable, pid := 1, priority := a }
          else if i = 1 then { Proc.zero with state := .runnable, pid := 2, priority := b }
          else Proc.zero } }
  cpu := fun _ => .idle

/-- The first turn of the loop takes the first slot, whatever the priorities. -/
theorem twoRunnable_switches (K : KernelAddrs) {a b : Int} (ha : OrDefault P a) (hb : OrDefault P b) :
    ∃ s, (schedSys K P).Reach (PrioCalls P) s ∧ Switches s 0 0 ∧ s.procs = (twoRunnable a b).procs := by
  have hinit : (schedSys K P).init (twoRunnable a b) := by
    refine ⟨fun i hu => ?_, (fun _ _ he => by cases he), (fun _ _ he => by cases he), (fun _ _ he => by cases he)⟩
    by_cases h0 : i = 0
    · subst h0
      exact ha
    · by_cases h1 : i = 1
      · subst h1
        exact hb
      · simp [twoRunnable, h0, h1, Proc.zero] at hu
  have hacq : (schedSys K P).step (twoRunnable a b) (.acquire 0) =
      some { twoRunnable a b with cpu := Function.update (twoRunnable a b).cpu 0 (.scan 0) } := by
    have hfree : (twoRunnable a b).LockFree := fun _ _ he => by cases he
    have hidle : (twoRunnable a b).cpu 0 = .idle := rfl
    simp only [schedSys, schedStep, hidle, hfree, and_self, if_true]
  exact ⟨_, Sys.Reach.step (.acquire 0) (.init hinit) trivial hacq, ⟨by simp, rfl⟩, rfl⟩

end SchedAux

open SchedAux

/-- In every run, from any table, of any calls, the loop of `scheduler` switches to a process only when no `RUNNABLE` process
has a smaller priority number, exactly when no other priority than the default is there: neither in the table at the start nor in
the calls of `set_priority` and `fork2`. -/
theorem dispatch_governed_iff (K : KernelAddrs) (P : Int → Prop) :
    (∀ s, (schedSys K P).Reach (PrioCalls P) s → ∀ c p, Switches s c p → Governed s.procs.table p) ↔ ∀ a, P a → a = 60 := by
  constructor
  · intro h a ha
    by_contra hne
    rcases Int.lt_or_gt_of_ne hne with hlt | hgt
    · obtain ⟨s, hs, hsw, hprocs⟩ := twoRunnable_switches (P := P) K (a := 60) (b := a) (.inl rfl) (.inr ha)
      have hgov := h s hs 0 0 hsw
      rw [hprocs] at hgov
      have hle : (60 : Int) ≤ a := hgov 1 rfl
      omega
    · obtain ⟨s, hs, hsw, hprocs⟩ := twoRunnable_switches (P := P) K (a := a) (b := 60) (.inr ha) (.inl rfl)
      have hgov := h s hs 0 0 hsw
      rw [hprocs] at hgov
      have hle : a ≤ (60 : Int) := hgov 1 rfl
      omega
  · intro h s hs c p hsw q hq
    have hok := prioOk_of_reach hs
    have hall : ∀ i, (s.procs.table.proc i).state = .runnable → (s.procs.table.proc i).priority = 60 := by
      intro i hi
      exact (hok.table i (by rw [hi]; nofun)).elim id (h _)
    rw [hall p hsw.2, hall q hq]

/-- The machine when it starts. -/
def schedBoot : SchedSt := { procs := .boot 1 2, cpu := fun _ => .idle }

/-- init makes a child of priority 80 with `fork2`, and yields. -/
def lowChild : List SchedAct :=
  [.acquire 0, .turn 0, .proc (.fork2 0 (some 80)), .proc (.forkStack 0 (some 3)), .proc (.forkCopy 0 (some 4)),
    .proc (.forkPublish 0), .proc (.yield 0)]

/-- The loop goes on from the slot of init to the child, whose number is 80, though init is `RUNNABLE` with 60. -/
theorem scheduler_passes_init :
    ∃ s, (schedSys sampleAddrs fun a => 0 ≤ a ∧ a ≤ 100).run schedBoot lowChild = some s ∧ Switches s 0 1 ∧
      (s.procs.table.proc 1).priority = 80 ∧ (s.procs.table.proc 0).state = .runnable ∧ (s.procs.table.proc 0).priority = 60 ∧
      ¬Governed s.procs.table 1 := by
  have hrun : ((schedSys sampleAddrs fun a => 0 ≤ a ∧ a ≤ 100).run schedBoot lowChild).isSome = true := by decide +kernel
  obtain ⟨s, hs⟩ := Option.isSome_iff_exists.mp hrun
  have hfacts : ∀ s ∈ (schedSys sampleAddrs fun a => 0 ≤ a ∧ a ≤ 100).run schedBoot lowChild,
      s.cpu 0 = .scan 1 ∧ (s.procs.table.proc 1).state = .runnable ∧ (s.procs.table.proc 1).priority = 80 ∧
        (s.procs.table.proc 0).state = .runnable ∧ (s.procs.table.proc 0).priority = 60 := by decide +kernel
  obtain ⟨hcpu, hchild, h80, hinit, h60⟩ := hfacts s hs
  refine ⟨s, hs, ⟨hcpu, hchild⟩, h80, hinit, h60, fun hgov => ?_⟩
  have hle := hgov 0 hinit
  rw [h80, h60] at hle
  exact absurd hle (by decide)

end OsLab
