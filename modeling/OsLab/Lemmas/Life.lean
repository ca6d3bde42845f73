import OsLab.Life

/-!
# The process calls are steps of a life

For each function of the process table, one equation for what it does to the lives; from these, `procStep_view`: with user
addresses for `waitx`, every step of the process calls is a step of `lifeSys`, or invisible there. In turn every step of
`lifeSys` is a step of the family (`forest_step`).
-/

namespace OsLab

open Function (update update_self update_of_ne)

@[simp] theorem modify_proc_self (t : Table) (i : Slot) (g : Proc → Proc) : (t.modify i g).proc i = g (t.proc i) := by
  simp [Table.modify]

theorem modify_proc_of_ne (t : Table) {i j : Slot} (g : Proc → Proc) (h : j ≠ i) : (t.modify i g).proc j = t.proc j := by
  simp [Table.modify, h]

theorem allocprocFound_of_ne {t : Table} {i j : Slot} (h : j ≠ i) : (allocprocFound i t).proc j = t.proc j := by
  simp [allocprocFound, Table.modify, h]

theorem modify_ticks (t : Table) (i : Slot) (g : Proc → Proc) : (t.modify i g).ticks = t.ticks := rfl

/-- A step that comes to a turn of the loop of a wait: the call, or the dispatch that ends its sleep; with the table at that turn. -/
inductive WaitsIn (s : ProcSt) : ProcAct → Slot → WaitCall → Table → Prop
  | dispatch {p : Slot} {w : WaitCall} (hr : (s.table.proc p).state = .runnable) (hw : s.pc p = .waiting w) :
    WaitsIn s (.dispatch p) p w (OsLab.dispatch p s.table)
  | wait {p : Slot} (hp : s.At p .user) : WaitsIn s (.wait p) p .wait s.table
  | waitx {p : Slot} {a b : Int} (hp : s.At p .user) : WaitsIn s (.waitx p (some a) (some b)) p (.waitx a b) s.table
  | waitpid {p : Slot} {n : Int} (hp : s.At p .user) : WaitsIn s (.waitpid p (some n)) p (.waitpid n) s.table

/-- What a step of the process calls can do: the place of its process, and what the function comes to that is called there. -/
inductive ProcMoves (A : KernelAddrs) (s : ProcSt) : ProcAct → ProcSt → Prop
  | turn {a : ProcAct} {p : Slot} {w : WaitCall} {t : Table} {s' : ProcSt} (hw : WaitsIn s a p w t)
    (h : ({ s with table := t } : ProcSt).waitTurn A p w = some s') : ProcMoves A s a s'
  | dispatch {p : Slot} (hr : (s.table.proc p).state = .runnable) :
    ProcMoves A s (.dispatch p) { s with table := OsLab.dispatch p s.table }
  | yield {p : Slot} (hr : (s.table.proc p).state = .running) : ProcMoves A s (.yield p) { s with table := OsLab.yield p s.table }
  | sleep {p : Slot} {addr : Nat} (hp : s.At p .user ∨ s.At p .exiting) :
    ProcMoves A s (.sleep p addr) { s with table := sleepOn p (.other addr) s.table }
  | wakeup {addr : Nat} : ProcMoves A s (.wakeup addr) { s with table := wakeup1 (some (.other addr)) s.table }
  | tick : ProcMoves A s .tick { s with table := OsLab.tick A.ticks s.table }
  | updateRtime : ProcMoves A s .updateRtime { s with table := OsLab.updateRtime s.table }
  | fork {p : Slot} (hp : s.At p .user) : ProcMoves A s (.fork p) (s.beginFork p none)
  | fork2 {p : Slot} {prio : Int} (hp : s.At p .user) : ProcMoves A s (.fork2 p (some prio)) (s.beginFork p (some prio))
  /-- A call whose arguments are refused. -/
  | refused {a : ProcAct} {p : Slot} (ha : (∃ b, a = .fork2 p b) ∨ (∃ b c, a = .waitx p b c) ∨ ∃ b, a = .waitpid p b) :
    ProcMoves A s a s
  | noStack {p np : Slot} {prio : Option Int} (hp : s.pc p = .forkStack np prio) :
    ProcMoves A s (.forkStack p none) (s.giveUp p np (allocprocStack np none s.table))
  | stack {p np : Slot} {prio : Option Int} {f : Frame} (hp : s.pc p = .forkStack np prio) :
    ProcMoves A s (.forkStack p (some f)) { s with
      table := allocprocStack np (some f) s.table
      pc := update s.pc p (.forkCopy np prio)
      log := .stack (s.inst np) f :: s.log }
  | noSpace {p np : Slot} {prio : Option Int} {f : Frame} (hp : s.pc p = .forkCopy np prio) (hf : (s.table.proc np).kstack = some f) :
    ProcMoves A s (.forkCopy p none)
      (({ s with log := .kfree (s.inst np) f :: s.log } : ProcSt).giveUp p np (forkFail np s.table))
  | space {p np : Slot} {prio : Option Int} {d : Frame} {t : Table} (hp : s.pc p = .forkCopy np prio)
    (ht : prio = none ∧ t = OsLab.forkCopy p np d s.table ∨ ∃ n, prio = some n ∧ t = fork2Copy p np n d s.table) :
    ProcMoves A s (.forkCopy p (some d)) { s with
      table := t
      pc := update s.pc p (.forkPublish np)
      log := .space (s.inst np) d :: s.log }
  | publish {p np : Slot} (hp : s.pc p = .forkPublish np) :
    ProcMoves A s (.forkPublish p) { s with
      table := OsLab.forkPublish np s.table
      pc := update s.pc p .user
      log := .published (s.inst np) (s.table.proc np).pid (s.table.proc np).killed :: s.log }
  | exitClose {p : Slot} (hp : s.At p .user) (hinit : p ≠ s.table.initproc) :
    ProcMoves A s (.exitClose p) (({ s with table := OsLab.exitClose p s.table } : ProcSt).setPc p .exiting)
  | exit {p : Slot} (hp : s.At p .exiting) : ProcMoves A s (.exit p) (({ s with table := exitTable p s.table } : ProcSt).setPc p .user)
  | kill {p : Slot} {pid : Arg} (hp : s.At p .user) :
    ProcMoves A s (.kill p pid) { s with table := (sysKill pid s.table).2, log := (pid.map .killCall).toList ++ s.log }
  | sigkill {p : Slot} {pid : Arg} (hp : s.At p .user) :
    ProcMoves A s (.sigkill p pid) { s with table := (sysSigkill pid s.table).2, log := (pid.map .killCall).toList ++ s.log }
  | setPriority {p : Slot} {pid prio : Arg} (hp : s.At p .user) :
    ProcMoves A s (.setPriority p pid prio) { s with table := (sysSetPriority pid prio s.table).2 }
  | fault {p : Slot} (hp : s.At p .user) : ProcMoves A s (.fault p) { s with table := s.table.modify p fun q => { q with killed := 1 } }

/-- Every step is one of the moves. -/
theorem procMoves_of_procStep {A : KernelAddrs} {s s' : ProcSt} {a : ProcAct} (h : procStep A s a = some s') : ProcMoves A s a s' := by
  cases a with
  | dispatch p =>
    simp only [procStep, Option.ite_none_right_eq_some] at h
    obtain ⟨hr, h⟩ := h
    split at h
    · exact .turn (.dispatch hr ‹_›) h
    · cases h
      exact .dispatch hr
  | wakeup addr =>
    cases h
    exact .wakeup
  | tick =>
    cases h
    exact .tick
  | updateRtime =>
    cases h
    exact .updateRtime
  | fork2 p b =>
    simp only [procStep, Option.ite_none_right_eq_some] at h
    obtain ⟨hp, h⟩ := h
    cases b with
    | none =>
      cases h
      exact .refused (.inl ⟨_, rfl⟩)
    | some prio =>
      dsimp only at h
      split at h
      · cases h
        exact .refused (.inl ⟨_, rfl⟩)
      · cases h
        exact .fork2 hp
  | forkStack p k =>
    simp only [procStep] at h
    split at h
    · simp only [Option.ite_none_right_eq_some] at h
      obtain ⟨-, h⟩ := h
      cases k with
      | none =>
        cases h
        exact .noStack ‹_›
      | some f =>
        cases h
        exact .stack ‹_›
    · cases h
  | forkCopy p d =>
    simp only [procStep] at h
    split at h
    · rename_i np prio hp
      simp only [Option.ite_none_right_eq_some] at h
      obtain ⟨-, h⟩ := h
      cases d with
      | none =>
        dsimp only at h
        split at h
        · cases h
        · cases h
          exact .noSpace hp ‹_›
      | some d =>
        cases h
        refine .space hp ?_
        cases prio with
        | none => exact .inl ⟨rfl, rfl⟩
        | some n => exact .inr ⟨n, rfl, rfl⟩
    · cases h
  | forkPublish p =>
    simp only [procStep] at h
    split at h
    · obtain ⟨-, rfl⟩ := of_guard h
      exact .publish ‹_›
    · cases h
  | exitClose p =>
    obtain ⟨⟨hp, hinit⟩, rfl⟩ := of_guard h
    exact .exitClose hp hinit
  | wait p =>
    simp only [procStep, Option.ite_none_right_eq_some] at h
    exact .turn (.wait h.1) h.2
  | waitx p a b =>
    simp only [procStep, Option.ite_none_right_eq_some] at h
    obtain ⟨hp, h⟩ := h
    split at h
    · exact .turn (.waitx hp) h
    · cases h
      exact .refused (.inr (.inl ⟨_, _, rfl⟩))
  | waitpid p a =>
    simp only [procStep, Option.ite_none_right_eq_some] at h
    obtain ⟨hp, h⟩ := h
    split at h
    · exact .turn (.waitpid hp) h
    · cases h
      exact .refused (.inr (.inr ⟨_, rfl⟩))
  -- the other steps ask for the place of their process, and do one thing there
  | _ =>
    obtain ⟨hp, rfl⟩ := of_guard h
    first
    | exact .yield hp
    | exact .sleep hp
    | exact .fork hp
    | exact .exit hp
    | exact .kill hp
    | exact .sigkill hp
    | exact .setPriority hp
    | exact .fault hp

namespace LifeAux

variable {pid : Int} {i cur : Slot} {s' : ProcSt} {A : KernelAddrs}

/-- A change of one slot changes one life. -/
theorem life_modify (t : Table) (i : Slot) (f : Proc → Proc) :
    (t.modify i f).life = update t.life i (f (t.proc i)).life := by
  funext j
  by_cases hj : j = i
  · subst hj
    simp [Table.life, Table.modify]
  · simp [Table.life, Table.modify, hj]

/-- A change of a slot that its life does not show. -/
theorem life_modify_same (t : Table) (i : Slot) (f : Proc → Proc) (h : (f (t.proc i)).life = (t.proc i).life) :
    (t.modify i f).life = t.life := by
  rw [life_modify, h]
  exact Function.update_eq_self i _

/-- A live process may be put to sleep, made runnable or dispatched: it stays live. -/
theorem life_sleepOn {t : Table} {p : Slot} (h : (t.life p).phase = .live) (c : Chan) : (sleepOn p c t).life = t.life :=
  life_modify_same t p _ (Life.ext h.symm rfl rfl rfl rfl rfl)

theorem life_yield {t : Table} {p : Slot} (h : (t.life p).phase = .live) : (yield p t).life = t.life :=
  life_modify_same t p _ (Life.ext h.symm rfl rfl rfl rfl rfl)

theorem life_dispatch {t : Table} {p : Slot} (h : (t.life p).phase = .live) : (dispatch p t).life = t.life :=
  life_modify_same t p _ (Life.ext h.symm rfl rfl rfl rfl rfl)

theorem life_exitClose (p : Slot) (t : Table) : (exitClose p t).life = t.life := life_modify_same t p _ rfl

/-- A wakeup changes no life, whoever it wakes. -/
theorem life_wakeup1 (c : Option Chan) (t : Table) : (wakeup1 c t).life = t.life := by
  funext i
  simp only [Table.life, wakeup1]
  split
  · rename_i h
    exact Life.ext (by simp [Proc.life, h.1, ProcState.phase]) rfl rfl rfl rfl rfl
  · rfl

theorem life_updateRtime (t : Table) : (updateRtime t).life = t.life := by
  funext i
  simp only [Table.life, updateRtime]
  split <;> rfl

theorem life_tick (a : Nat) (t : Table) : (tick a t).life = t.life := life_wakeup1 _ _

/-- Neither does a new priority. -/
theorem life_sysSetPriority (a b : Arg) (t : Table) :
    (sysSetPriority a b t).2.life = t.life ∧ (sysSetPriority a b t).2.nextpid = t.nextpid ∧
      (sysSetPriority a b t).2.initproc = t.initproc := by
  unfold sysSetPriority
  split
  · split
    · exact ⟨rfl, rfl, rfl⟩
    · split
      · exact ⟨rfl, rfl, rfl⟩
      · dsimp only
        exact ⟨life_modify_same t _ _ rfl, rfl, rfl⟩
  · exact ⟨rfl, rfl, rfl⟩

/-- `kill` marks the first slot with the pid, and may make a sleeper runnable. -/
theorem life_kill {t : Table} (h : slotOfPid pid t = some i) : (kill pid t).2.life = update t.life i { t.life i with killed := 1 } := by
  simp only [kill, h]
  rw [life_modify]
  congr 1
  refine Life.ext ?_ rfl rfl rfl rfl rfl
  by_cases hs : (t.proc i).state = .sleeping <;> simp [Proc.life, Table.life, hs, ProcState.phase]

/-- A pid that nobody has changes nothing. -/
theorem kill_miss {t : Table} (h : slotOfPid pid t = none) : (kill pid t).2 = t := by
  simp only [kill, h]

theorem slotOfPid_some {t : Table} (h : slotOfPid pid t = some i) : (t.life i).pid = pid := by
  have : (t.proc i).pid = pid := by simpa using List.find?_some h
  exact this

theorem freeSlot_some {t : Table} (h : freeSlot t = some i) : (t.life i).phase = .free := by
  have : (t.proc i).state = .unused := by simpa using List.find?_some h
  simp [Table.life, Proc.life, this, ProcState.phase]

/-! ## Fork -/

theorem life_allocprocFound (i : Slot) (t : Table) :
    (allocprocFound i t).life = update t.life i { t.life i with phase := .embryo, pid := t.nextpid } := by
  funext j
  by_cases hj : j = i
  · subst hj
    simp [Table.life, allocprocFound, Table.modify, Proc.life, ProcState.phase]
  · simp [Table.life, allocprocFound, Table.modify, hj]

/-- Without a page for the stack the slot is free again. -/
theorem life_allocprocStack_none (i : Slot) (t : Table) :
    (allocprocStack i none t).life = update t.life i { t.life i with phase := .free, kstack := none } :=
  life_modify t i fun p => { p with kstack := none, state := .unused }

theorem life_allocprocStack_some (i : Slot) (f : Frame) (t : Table) :
    (allocprocStack i (some f) t).life = update t.life i { t.life i with kstack := some f } :=
  life_modify t i fun p => { p with kstack := some f }

/-- A fork that fails frees the slot and its pages. -/
theorem life_forkFail (np : Slot) (t : Table) :
    (forkFail np t).life =
      update t.life np { t.life np with phase := .free, kstack := none, pgdir := none } :=
  life_modify t np fun p => { p with pgdir := none, kstack := none, state := .unused }

theorem life_forkCopy (cur np : Slot) (d : Frame) (t : Table) :
    (forkCopy cur np d t).life = update t.life np { t.life np with parent := some cur, pgdir := some d } := by
  rw [forkCopy, life_modify]
  rfl

/-- The priority that `fork2` writes does not show. -/
theorem life_fork2Copy (cur np : Slot) (prio : Int) (d : Frame) (t : Table) :
    (fork2Copy cur np prio d t).life = (forkCopy cur np d t).life := life_modify_same _ np _ rfl

/-- The child is alive from here on. -/
theorem life_forkPublish (np : Slot) (t : Table) :
    (forkPublish np t).life = update t.life np { t.life np with phase := .live } :=
  life_modify t np fun p => { p with state := .runnable }

/-! ## Exit -/

/-- One turn of the loop of `exit`. -/
theorem life_reparentOne (cur : Slot) (t : Table) (i : Slot) :
    (reparentOne cur t i).life = update t.life i
        { t.life i with parent := if (t.life i).parent = some cur then some t.initproc else (t.life i).parent } ∧
      (reparentOne cur t i).initproc = t.initproc ∧ (reparentOne cur t i).nextpid = t.nextpid := by
  unfold reparentOne
  split
  · rename_i h
    have hpar : (t.life i).parent = some cur := h
    rw [if_pos hpar]
    dsimp only
    split
    · rw [life_wakeup1, life_modify]
      exact ⟨rfl, rfl, rfl⟩
    · rw [life_modify]
      exact ⟨rfl, rfl, rfl⟩
  · rename_i h
    have hpar : ¬ (t.life i).parent = some cur := h
    rw [if_neg hpar]
    exact ⟨(Function.update_eq_self i _).symm, rfl, rfl⟩

/-- The whole loop, by induction on the slots still to visit. -/
theorem life_foldl_reparentOne (cur : Slot) (l : List Slot) (t : Table) :
    (l.foldl (reparentOne cur) t).life = (fun i =>
        { t.life i with parent :=
            if i ∈ l ∧ (t.life i).parent = some cur then some t.initproc else (t.life i).parent }) ∧
      (l.foldl (reparentOne cur) t).initproc = t.initproc ∧ (l.foldl (reparentOne cur) t).nextpid = t.nextpid := by
  induction l generalizing t with
  | nil => exact ⟨by simp, rfl, rfl⟩
  | cons i l ih =>
    obtain ⟨hlife, hinit, hnext⟩ := life_reparentOne cur t i
    obtain ⟨hlife', hinit', hnext'⟩ := ih (reparentOne cur t i)
    rw [List.foldl_cons]
    refine ⟨?_, hinit'.trans hinit, hnext'.trans hnext⟩
    rw [hlife', hlife, hinit]
    funext j
    by_cases hj : j = i
    · subst hj
      by_cases hp : (t.life j).parent = some cur <;> simp [hp]
    · simp [hj]

theorem mem_slots (i : Slot) : i ∈ slots := List.mem_finRange i

/-- The critical section of `exit`: the caller is a zombie, its children belong to init, and that is all. -/
theorem life_exitTable (cur : Slot) (t : Table) :
    (exitTable cur t).life = (fun i =>
        { t.life i with
          phase := if i = cur then .zombie else (t.life i).phase
          parent := if (t.life i).parent = some cur then some t.initproc else (t.life i).parent }) ∧
      (exitTable cur t).initproc = t.initproc ∧ (exitTable cur t).nextpid = t.nextpid := by
  obtain ⟨hlife, hinit, hnext⟩ := life_foldl_reparentOne cur slots (wakeup1 ((t.proc cur).parent.map .proc) t)
  rw [life_wakeup1] at hlife
  have hr : (exitReparent cur t).life = fun i =>
      { t.life i with
        parent := if (t.life i).parent = some cur then some t.initproc else (t.life i).parent } := by
    rw [exitReparent, hlife]
    simp only [mem_slots, true_and]
    rfl
  have hinit : (exitReparent cur t).initproc = t.initproc := hinit
  have hnext : (exitReparent cur t).nextpid = t.nextpid := hnext
  rw [exitTable]
  generalize exitReparent cur t = t' at hr hinit hnext
  refine ⟨?_, hinit, hnext⟩
  rw [life_modify]
  funext i
  by_cases hi : i = cur
  · subst hi
    have h : (t'.proc i).life = _ := congrFun hr i
    simp only [update_self, if_true]
    calc
      _ = { (t'.proc i).life with phase := .zombie } := rfl
      _ = _ := by rw [h]
  · simp [hi, hr]

/-! ## Waiting -/

/-- What the scan reports: the zombie it found is in the table and is one the call waits for. -/
theorem waitScan_zombie {w : WaitCall} {t : Table} {l : List Slot} {b : Bool} (h : waitScan w cur t b l = .zombie i) :
    (t.proc i).state = .zombie ∧ w.mine cur (t.proc i) = true := by
  induction l generalizing b with
  | nil => cases h
  | cons j l ih =>
    simp only [waitScan] at h
    split at h
    · rename_i hm
      split at h
      · rename_i hz
        cases h
        exact ⟨hz, hm⟩
      · exact ih h
    · exact ih h

/-- Whatever the call waits for is a child of the caller, with the pid that the call asks for. -/
theorem mine_iff (w : WaitCall) (cur : Slot) (p : Proc) : w.mine cur p = true ↔ p.parent = some cur ∧ w.Wants p.pid := by
  cases w with
  | wait | waitx a b | waitpid n => simp [WaitCall.mine, WaitCall.Wants]

/-- The teardown that the three reapers agree on. -/
def teardown (i : Slot) (t : Table) : Reaped where
  ret := (t.proc i).pid
  kstack := (t.proc i).kstack
  pgdir := (t.proc i).pgdir
  table := t.modify i fun p =>
    { p with kstack := none, pid := 0, parent := none, name := [], killed := 0, state := .unused }

/-- A slot that is torn down is free, and has neither a pid nor a parent. -/
theorem life_teardown (i : Slot) (t : Table) :
    (teardown i t).table.life =
      update t.life i { t.life i with phase := .free, parent := none, pid := 0, kstack := none, killed := 0 } :=
  life_modify t i fun p =>
    { p with kstack := none, pid := 0, parent := none, name := [], killed := 0, state := .unused }

/-- A store to a user address leaves the table alone. -/
theorem storeInt_user {base addr : Nat} (h : addr + 4 ≤ KERNBASE) (v : Int) (t : Table) : storeInt base addr v t = some t := by
  unfold storeInt
  rw [if_pos h]

/-- With addresses in user space the three reapers do the same to the child they have found. -/
theorem reap_eq_teardown {w : WaitCall} (hw : w.UserAddrs) (base : Nat) (i : Slot) (t : Table) :
    w.reap base i t = some (teardown i t) := by
  cases w with
  | wait | waitpid n => rfl
  | waitx a b =>
    simp only [WaitCall.reap, waitxReap, storeInt_user hw.1, storeInt_user hw.2]
    rfl

/-- What one turn of a wait comes to, with addresses in user space. -/
theorem waitPass_cases {base : Nat} {w : WaitCall} (hw : w.UserAddrs) {t : Table} {r : WaitPass} (h : waitPass base w cur t = some r) :
    r = .fail ∨ r = .sleep ∨
      ∃ i, r = .reaped i (teardown i t) ∧ (t.proc i).state = .zombie ∧ w.mine cur (t.proc i) = true := by
  unfold waitPass at h
  split at h
  · rename_i i hs
    obtain ⟨hz, hm⟩ := waitScan_zombie hs
    rw [reap_eq_teardown hw] at h
    simp only [Option.map_some, Option.some.injEq] at h
    exact Or.inr (Or.inr ⟨i, h.symm, hz, hm⟩)
  · split at h
    · simp only [Option.some.injEq] at h
      exact Or.inl h.symm
    · simp only [Option.some.injEq] at h
      exact Or.inr (Or.inl h.symm)

/-! ## The steps -/

/-- What is known of a process from where it is in the code: the addresses that a wait was called with have been let
through, and init is not exiting. -/
structure PcOk (s : ProcSt) : Prop where
  addrs : ∀ p w, s.pc p = .waiting w → w.UserAddrs
  notInit : ∀ p, s.pc p = .exiting → p ≠ s.table.initproc

/-- A step that changes nothing of a life, and leaves the forks where they are. -/
theorem view_quiet {s : ProcSt} (hl : s'.table.life = s.table.life) (hn : s'.table.nextpid = s.table.nextpid)
    (hr : s'.table.initproc = s.table.initproc) (hp : ∀ p, (s'.pc p).place = (s.pc p).place) (hi : s'.inst = s.inst)
    (ha : s'.allocs = s.allocs) (hlog : s'.log = s.log) : view s' = view s :=
  LifeSt.ext hl hn hr (funext hp) hi ha hlog

/-- Moving a process between places outside a fork. -/
theorem place_update {f : Slot → ProcPc} {p : Slot} {c : ProcPc} (hp : (f p).place = .idle) (hc : c.place = .idle)
    (q : Slot) : (update f p c q).place = (f q).place := by
  by_cases hq : q = p
  · subst hq
    simp [hp, hc]
  · simp [hq]

/-- What a process makes, after it has moved. -/
theorem place_update_eq (f : Slot → ProcPc) (p : Slot) (c : ProcPc) :
    (fun q => (update f p c q).place) = update (fun q => (f q).place) p c.place := by
  funext q
  by_cases hq : q = p
  · subst hq
    simp
  · simp [hq]

theorem live_of_running {s : ProcSt} {p : Slot} (h : (s.table.proc p).state = .running) :
    ((view s).life p).phase = .live := by
  simp [view, Table.life, Proc.life, h, ProcState.phase]

theorem live_of_runnable {s : ProcSt} {p : Slot} (h : (s.table.proc p).state = .runnable) :
    ((view s).life p).phase = .live := by
  simp [view, Table.life, Proc.life, h, ProcState.phase]

/-- Which step of a life a step of the process calls may be: a `kill` of the slot that the call finds, a fork that gives up for
lack of memory, and an exit, are named. -/
def Comes (s : ProcSt) (a : ProcAct) : LifeAct → Prop
  | .kill pid i => (∃ p, a = .kill p (some pid) ∨ a = .sigkill p (some pid)) ∧ slotOfPid pid s.table = some i
  | .noStack p i => a = .forkStack p none ∧ ∃ prio, s.pc p = .forkStack i prio
  | .noSpace p i _ => a = .forkCopy p none ∧ ∃ prio, s.pc p = .forkCopy i prio
  | .exit p => a = .exit p
  | _ => True

/-- From a distance: nothing has happened, or a step of a life. -/
def Seen (s : ProcSt) (a : ProcAct) (s' : ProcSt) : Prop :=
  view s' = view s ∨ ∃ b, Comes s a b ∧ (view s).step b = some (view s')

/-- One turn of a wait: it fails or goes to sleep, which is invisible, or it reaps. The table may be the one that the
dispatch before it has left. -/
theorem waitTurn_seen {A : KernelAddrs} {s s' : ProcSt} {a : ProcAct} {t : Table} {cur : Slot} {w : WaitCall}
    (hw : w.UserAddrs) (hview : view { s with table := t } = view s) (hidle : (s.pc cur).place = .idle)
    (hlive : ((view s).life cur).phase = .live) (h : ({ s with table := t } : ProcSt).waitTurn A cur w = some s') :
    Seen s a s' := by
  unfold Seen
  rw [← hview] at hlive ⊢
  unfold ProcSt.waitTurn at h
  split at h
  · cases h
  · cases h
    exact Or.inl (view_quiet rfl rfl rfl (place_update hidle rfl) rfl rfl rfl)
  · cases h
    exact Or.inl (view_quiet (life_sleepOn hlive _) rfl rfl (place_update hidle rfl) rfl rfl rfl)
  · rename_i i r hp
    rcases waitPass_cases hw hp with hr | hr | ⟨j, hr, hz, hm⟩
    · cases hr
    · cases hr
    · cases hr
      obtain ⟨hpar, hwants⟩ := (mine_iff w cur _).mp hm
      split at h
      · rename_i f d hf hd
        cases h
        have hzombie : (t.life i).phase = .zombie := by
          simp only at hz
          simp [Table.life, Proc.life, hz, ProcState.phase]
        refine Or.inr ⟨.reap cur w i f d, trivial,
          (if_pos ⟨hzombie, hpar, hwants, hf, hd, hidle⟩).trans (congrArg some ?_)⟩
        exact LifeSt.ext (life_teardown i t).symm rfl rfl (place_update_eq s.pc cur .user).symm rfl rfl rfl
      · cases h

/-- The critical section of `allocproc`. -/
theorem beginFork_view {s : ProcSt} {p : Slot} (hp : s.At p .user) (prio : Option Int) :
    view (s.beginFork p prio) = view s ∨ ∃ np, (view s).step (.claim p np) = some (view (s.beginFork p prio)) := by
  unfold ProcSt.beginFork allocprocClaim
  cases hf : freeSlot s.table with
  | none => exact Or.inl rfl
  | some np =>
    have hidle : (view s).place p = .idle := by simp [view, hp.2, ProcPc.place]
    refine Or.inr ⟨np, (if_pos ⟨live_of_running hp.1, hidle, freeSlot_some hf⟩).trans (congrArg some ?_)⟩
    exact LifeSt.ext (life_allocprocFound np s.table).symm rfl rfl (place_update_eq s.pc p (.forkStack np prio)).symm
      rfl rfl rfl

/-- A `kill` or `sigkill`, which do the same. -/
theorem kill_view {s : ProcSt} {a : ProcAct} (pid : Arg)
    (ha : ∀ n, pid = some n → ∃ p, a = .kill p (some n) ∨ a = .sigkill p (some n)) :
    Seen s a { s with table := (sysKill pid s.table).2, log := (pid.map .killCall).toList ++ s.log } := by
  cases pid with
  | none => exact Or.inl rfl
  | some n =>
    cases hs : slotOfPid n s.table with
    | none =>
      refine Or.inr ⟨.killMiss n, trivial, congrArg some ?_⟩
      have ht : (sysKill (some n) s.table).2 = s.table := kill_miss hs
      rw [ht]
      rfl
    | some i =>
      refine Or.inr ⟨.kill n i, ⟨ha n rfl, hs⟩, (if_pos (slotOfPid_some hs)).trans (congrArg some ?_)⟩
      have hsame : (sysKill (some n) s.table).2.nextpid = s.table.nextpid ∧
          (sysKill (some n) s.table).2.initproc = s.table.initproc := by simp [sysKill, kill, hs, Table.modify]
      exact LifeSt.ext (life_kill hs).symm hsame.1.symm hsame.2.symm rfl rfl rfl rfl

/-- The begin of a fork is seen as the claim of a slot, or not at all. -/
theorem beginFork_seen {s : ProcSt} {a : ProcAct} {p : Slot} (hp : s.At p .user) (prio : Option Int) : Seen s a (s.beginFork p prio) := by
  rcases beginFork_view hp prio with he | ⟨np, hst⟩
  · exact Or.inl he
  · exact Or.inr ⟨.claim p np, trivial, hst⟩

theorem place_of {s : ProcSt} {p : Slot} {c : ProcPc} (hp : s.pc p = c) : (view s).place p = c.place := by rw [← hp]; rfl

section Waits

variable {s : ProcSt} {a : ProcAct} {p : Slot} {w : WaitCall} {t : Table}

/-- The addresses of a call that waits are the ones it came with. -/
theorem waitsIn_userAddrs (haddrs : ∀ p w, s.pc p = .waiting w → w.UserAddrs) (hok : UserWaitx s a) (h : WaitsIn s a p w t) :
    w.UserAddrs := by
  cases h with
  | dispatch _ hw => exact haddrs p w hw
  | wait | waitpid => trivial
  | waitx => exact hok

theorem waitsIn_idle (h : WaitsIn s a p w t) : (s.pc p).place = .idle := by
  cases h with
  | dispatch _ hw => rw [hw]; rfl
  | wait hp | waitx hp | waitpid hp => rw [hp.2]; rfl

theorem waitsIn_live (h : WaitsIn s a p w t) : ((view s).life p).phase = .live := by
  cases h with
  | dispatch hr => exact live_of_runnable hr
  | wait hp | waitx hp | waitpid hp => exact live_of_running hp.1

theorem waitsIn_life (h : WaitsIn s a p w t) : t.life = s.table.life := by
  have hlive := waitsIn_live h
  cases h with
  | dispatch => exact life_dispatch hlive
  | _ => rfl

/-- A turn of a wait that finds nothing is not seen. -/
theorem waitsIn_view (h : WaitsIn s a p w t) : view { s with table := t } = view s := by
  have hlife := waitsIn_life h
  cases h with
  | dispatch => exact view_quiet hlife rfl rfl (fun _ => rfl) rfl rfl rfl
  | _ => rfl

/-- The caller runs when it looks for a zombie. -/
theorem waitsIn_running (h : WaitsIn s a p w t) : (t.proc p).state = .running := by
  cases h with
  | dispatch => simp [dispatch, Table.modify]
  | wait hp | waitx hp | waitpid hp => exact hp.1

end Waits

/-- Every step of the process calls, from a distance. -/
theorem procStep_view {s : ProcSt} {a : ProcAct} (hpc : PcOk s) (hok : UserWaitx s a) (h : procStep A s a = some s') : Seen s a s' := by
  have hplaces : ∀ p, (s.pc p).place = (s.pc p).place := fun _ => rfl
  cases procMoves_of_procStep h with
  | turn hw hturn => exact waitTurn_seen (waitsIn_userAddrs hpc.addrs hok hw) (waitsIn_view hw) (waitsIn_idle hw) (waitsIn_live hw) hturn
  | dispatch hr => exact Or.inl (view_quiet (life_dispatch (live_of_runnable hr)) rfl rfl hplaces rfl rfl rfl)
  | yield hr => exact Or.inl (view_quiet (life_yield (live_of_running hr)) rfl rfl hplaces rfl rfl rfl)
  | sleep hp =>
    have hrun := hp.elim And.left And.left
    exact Or.inl (view_quiet (life_sleepOn (live_of_running hrun) _) rfl rfl hplaces rfl rfl rfl)
  | wakeup => exact Or.inl (view_quiet (life_wakeup1 _ _) rfl rfl hplaces rfl rfl rfl)
  | tick => exact Or.inl (view_quiet (life_tick _ _) rfl rfl hplaces rfl rfl rfl)
  | updateRtime => exact Or.inl (view_quiet (life_updateRtime _) rfl rfl hplaces rfl rfl rfl)
  | fork hp => exact beginFork_seen hp none
  | fork2 hp => exact beginFork_seen hp _
  | refused => exact Or.inl rfl
  | @noStack p np prio hp =>
    refine Or.inr ⟨.noStack p np, ⟨rfl, prio, hp⟩, (if_pos (place_of hp)).trans (congrArg some ?_)⟩
    exact LifeSt.ext (life_allocprocStack_none np s.table).symm rfl rfl (place_update_eq s.pc p .user).symm rfl rfl rfl
  | @stack p np prio f hp =>
    refine Or.inr ⟨.stack p np f, trivial, (if_pos (place_of hp)).trans (congrArg some ?_)⟩
    exact LifeSt.ext (life_allocprocStack_some np f s.table).symm rfl rfl
      (place_update_eq s.pc p (.forkCopy np prio)).symm rfl rfl rfl
  | @noSpace p np prio f hp hf =>
    refine Or.inr ⟨.noSpace p np f, ⟨rfl, prio, hp⟩, (if_pos ⟨place_of hp, hf⟩).trans (congrArg some ?_)⟩
    exact LifeSt.ext (life_forkFail np s.table).symm rfl rfl (place_update_eq s.pc p .user).symm rfl rfl rfl
  | @space p np prio d t hp ht =>
    refine Or.inr ⟨.space p np d, trivial, (if_pos (place_of hp)).trans (congrArg some ?_)⟩
    rcases ht with ⟨-, rfl⟩ | ⟨n, -, rfl⟩
    · exact LifeSt.ext (life_forkCopy p np d s.table).symm rfl rfl (place_update_eq s.pc p (.forkPublish np)).symm rfl rfl rfl
    · exact LifeSt.ext ((life_fork2Copy p np n d s.table).trans (life_forkCopy p np d s.table)).symm rfl rfl
        (place_update_eq s.pc p (.forkPublish np)).symm rfl rfl rfl
  | @publish p np hp =>
    refine Or.inr ⟨.publish p np, trivial, (if_pos (place_of hp)).trans (congrArg some ?_)⟩
    exact LifeSt.ext (life_forkPublish np s.table).symm rfl rfl (place_update_eq s.pc p .user).symm rfl rfl rfl
  | @exitClose p hp =>
    have hidle : (s.pc p).place = .idle := by rw [hp.2]; rfl
    exact Or.inl (view_quiet (life_exitClose p s.table) rfl rfl (place_update hidle rfl) rfl rfl rfl)
  | @exit p hp =>
    have hidle := place_of hp.2
    obtain ⟨hlife, hinit, hnext⟩ := life_exitTable p s.table
    generalize exitTable p s.table = t at hlife hinit hnext ⊢
    refine Or.inr ⟨.exit p, rfl, (if_pos ⟨hpc.notInit p hp.2, live_of_running hp.1, hidle⟩).trans (congrArg some ?_)⟩
    exact LifeSt.ext hlife.symm hnext.symm hinit.symm (funext fun q => (place_update hidle rfl q).symm) rfl rfl rfl
  | @kill p pid => exact kill_view pid (by rintro n rfl; exact ⟨p, Or.inl rfl⟩)
  | @sigkill p pid => exact kill_view pid (by rintro n rfl; exact ⟨p, Or.inr rfl⟩)
  | @setPriority p pid prio =>
    obtain ⟨hlife, hnext, hinit⟩ := life_sysSetPriority pid prio s.table
    exact Or.inl (view_quiet hlife hnext hinit hplaces rfl rfl rfl)
  | @fault p hp =>
    refine Or.inr ⟨.fault p, trivial, (if_pos (live_of_running hp.1)).trans (congrArg some ?_)⟩
    exact LifeSt.ext (life_modify s.table p fun q => { q with killed := 1 }).symm rfl rfl rfl rfl rfl rfl

/-! ## Where the processes are -/

/-- A process may move to this place: a wait has been let through, and it is not init that exits. -/
def MayMove (s : ProcSt) (p : Slot) (c : ProcPc) : Prop :=
  (∀ w, c = .waiting w → w.UserAddrs) ∧ (c = .exiting → p ≠ s.table.initproc)

/-- A step moves at most one process. -/
def Moves (s s' : ProcSt) : Prop := s'.pc = s.pc ∨ ∃ p c, s'.pc = update s.pc p c ∧ MayMove s p c

theorem moves_user {s : ProcSt} {p : Slot} (h : s'.pc = update s.pc p .user) : Moves s s' :=
  Or.inr ⟨p, .user, h, by simp [MayMove]⟩

/-- A turn of a wait leaves the caller asleep in it or outside. -/
theorem waitTurn_moves {s : ProcSt} {t : Table} {w : WaitCall} (hw : w.UserAddrs)
    (h : ({ s with table := t } : ProcSt).waitTurn A cur w = some s') : Moves s s' := by
  unfold ProcSt.waitTurn at h
  split at h
  · cases h
  · cases h
    exact moves_user rfl
  · cases h
    refine Or.inr ⟨cur, .waiting w, rfl, ?_, by simp⟩
    rintro w' hw'
    cases hw'
    exact hw
  · split at h
    · cases h
      exact moves_user rfl
    · cases h

theorem beginFork_moves (s : ProcSt) (p : Slot) (prio : Option Int) : Moves s (s.beginFork p prio) := by
  unfold ProcSt.beginFork
  split
  · exact Or.inl rfl
  · exact Or.inr ⟨p, _, rfl, by simp [MayMove]⟩

/-- Each step moves one process at most. -/
theorem procStep_moves {s : ProcSt} {a : ProcAct} (hpc : PcOk s) (hok : UserWaitx s a) (h : procStep A s a = some s') : Moves s s' := by
  cases procMoves_of_procStep h with
  | turn hw hturn => exact waitTurn_moves (waitsIn_userAddrs hpc.addrs hok hw) hturn
  | fork => exact beginFork_moves s _ none
  | fork2 => exact beginFork_moves s _ _
  | noStack | noSpace | publish | exit => exact moves_user rfl
  | stack | space => exact Or.inr ⟨_, _, rfl, by simp [MayMove]⟩
  | exitClose _ hinit => exact Or.inr ⟨_, .exiting, rfl, by simp, fun _ => hinit⟩
  -- the other steps change the table or the record only
  | _ => exact Or.inl rfl

/-- A step of a life leaves the root alone. -/
theorem root_step {v v' : LifeSt} {b : LifeAct} (h : v.step b = some v') : v'.root = v.root := by
  cases b with
  | killMiss =>
    cases h
    rfl
  | _ =>
    obtain ⟨-, rfl⟩ := of_guard h
    rfl

/-- Every step keeps what the places tell. -/
theorem PcOk.step {s : ProcSt} {a : ProcAct} (hI : PcOk s) (hok : UserWaitx s a) (h : procStep A s a = some s') : PcOk s' := by
  have hroot : s'.table.initproc = s.table.initproc := by
    rcases procStep_view hI hok h with he | ⟨b, -, hst⟩
    · exact congrArg LifeSt.root he
    · exact root_step hst
  rcases procStep_moves hI hok h with he | ⟨p, c, he, hw, hx⟩
  · exact ⟨fun q w hq => hI.addrs q w (he ▸ hq), fun q hq => hroot ▸ hI.notInit q (he ▸ hq)⟩
  · refine ⟨fun q w hq => ?_, fun q hq => ?_⟩
    · rw [he] at hq
      by_cases hqp : q = p
      · subst hqp
        rw [update_self] at hq
        exact hw w hq
      · rw [update_of_ne hqp] at hq
        exact hI.addrs q w hq
    · rw [he] at hq
      rw [hroot]
      by_cases hqp : q = p
      · subst hqp
        rw [update_self] at hq
        exact hx hq
      · rw [update_of_ne hqp] at hq
        exact hI.notInit q hq

end LifeAux

end OsLab
