import OsLab.Lemmas.LifeRuns

/-!
# What a step of the process calls does to sleep and time

Most steps are calm (`Table.Calm`): nobody falls asleep, nobody dies, no slot comes into use, and the clock and the times of the
processes stay. `procStep_cases` names the others: a process goes to sleep, on an address or in a wait; the timer ticks; the
run times are updated; `allocproc` takes a slot; a process exits.
-/

namespace OsLab

open Function (update update_self update_of_ne)

/-- Nothing of note has happened to a process: it has not fallen asleep, died or come into being, and its times are as they
were. -/
structure Proc.Calm (p p' : Proc) : Prop where
  sleeping : p'.state = .sleeping → p.state = .sleeping ∧ p'.chan = p.chan
  zombie : p'.state = .zombie → p.state = .zombie
  used : p'.state ≠ .unused → p.state ≠ .unused
  ctime : p'.ctime = p.ctime
  etime : p'.etime = p.etime
  rtime : p'.rtime = p.rtime

/-- Nothing of note has happened to any process, and the clock has not moved. -/
structure Table.Calm (t t' : Table) : Prop where
  proc : ∀ i, (t.proc i).Calm (t'.proc i)
  ticks : t'.ticks = t.ticks

theorem Proc.Calm.refl (p : Proc) : p.Calm p := ⟨fun h => ⟨h, rfl⟩, id, id, rfl, rfl, rfl⟩

theorem Proc.Calm.trans {p p' p'' : Proc} (h : p.Calm p') (h' : p'.Calm p'') : p.Calm p'' where
  sleeping hs :=
    have ⟨h₁, hc₁⟩ := h'.sleeping hs
    have ⟨h₂, hc₂⟩ := h.sleeping h₁
    ⟨h₂, hc₁.trans hc₂⟩
  zombie hz := h.zombie (h'.zombie hz)
  used hu := h.used (h'.used hu)
  ctime := h'.ctime.trans h.ctime
  etime := h'.etime.trans h.etime
  rtime := h'.rtime.trans h.rtime

/-- A process whose times have been kept, in a state in which it is neither asleep nor a zombie. -/
theorem Proc.Calm.awake {p p' : Proc} (hs : p'.state ≠ .sleeping) (hz : p'.state ≠ .zombie) (hu : p.state ≠ .unused)
    (hc : p'.ctime = p.ctime) (he : p'.etime = p.etime) (hr : p'.rtime = p.rtime) : p.Calm p' :=
  ⟨fun h => absurd h hs, fun h => absurd h hz, fun _ => hu, hc, he, hr⟩

/-- A process whose state, channel and times have been kept. -/
theorem Proc.Calm.same {p p' : Proc} (hs : p'.state = p.state) (hch : p'.chan = p.chan) (hc : p'.ctime = p.ctime)
    (he : p'.etime = p.etime) (hr : p'.rtime = p.rtime) : p.Calm p' :=
  ⟨fun h => ⟨hs ▸ h, hch⟩, fun h => hs ▸ h, fun h => hs ▸ h, hc, he, hr⟩

/-- A slot that is given up. -/
theorem Proc.Calm.freed {p p' : Proc} (hs : p'.state = .unused) (hc : p'.ctime = p.ctime) (he : p'.etime = p.etime)
    (hr : p'.rtime = p.rtime) : p.Calm p' := by
  refine ⟨fun h => ?_, fun h => ?_, fun h => absurd hs h, hc, he, hr⟩
  · rw [hs] at h
    cases h
  · rw [hs] at h
    cases h

namespace LifeAux

variable {t : Table} {i p np cur q : Slot} {A : KernelAddrs} {s s' : ProcSt} {a : ProcAct} {w : WaitCall}

theorem calm_refl (t : Table) : t.Calm t := ⟨fun _ => .refl _, rfl⟩

/-- Calm changes compose. -/
theorem calm_trans {t' t'' : Table} (h : t.Calm t') (h' : t'.Calm t'') : t.Calm t'' :=
  ⟨fun i => (h.proc i).trans (h'.proc i), h'.ticks.trans h.ticks⟩

/-- One slot is changed. -/
theorem calm_modify {f : Proc → Proc} (h : (t.proc i).Calm (f (t.proc i))) : t.Calm (t.modify i f) := by
  refine ⟨fun j => ?_, rfl⟩
  by_cases hj : j = i
  · subst hj
    simpa [Table.modify] using h
  · simpa [Table.modify, hj] using Proc.Calm.refl _

/-- A wakeup is calm. -/
theorem calm_wakeup1 (c : Option Chan) (t : Table) : t.Calm (wakeup1 c t) := by
  refine ⟨fun i => ?_, rfl⟩
  simp only [wakeup1]
  split
  · rename_i h
    exact .awake (fun he => by cases he) (fun he => by cases he) (by simp [h.1]) rfl rfl rfl
  · exact .refl _

/-- So is a kill, which may wake its target. -/
theorem calm_kill (pid : Int) (t : Table) : t.Calm (kill pid t).2 := by
  unfold kill
  split
  · exact calm_refl t
  · rename_i i _
    dsimp only
    refine calm_modify ?_
    by_cases hs : (t.proc i).state = .sleeping
    · exact .awake (by simp [hs]) (by simp [hs]) (by simp [hs]) rfl rfl rfl
    · exact .same (by simp [hs]) rfl rfl rfl rfl

theorem calm_sysKill (a : Arg) (t : Table) : t.Calm (sysKill a t).2 := by
  cases a with
  | none => exact calm_refl t
  | some pid => exact calm_kill pid t

theorem calm_sysSetPriority (a b : Arg) (t : Table) : t.Calm (sysSetPriority a b t).2 := by
  unfold sysSetPriority
  split
  · split
    · exact calm_refl t
    · split
      · exact calm_refl t
      · dsimp only
        exact calm_modify (.same rfl rfl rfl rfl rfl)
  · exact calm_refl t

theorem calm_exitClose (p : Slot) (t : Table) : t.Calm (exitClose p t) := calm_modify (.same rfl rfl rfl rfl rfl)

theorem calm_yield (h : (t.proc p).state = .running) : t.Calm (yield p t) :=
  calm_modify (.awake nofun nofun (by simp [h]) rfl rfl rfl)

theorem calm_dispatch (h : (t.proc p).state = .runnable) : t.Calm (dispatch p t) :=
  calm_modify (.awake nofun nofun (by simp [h]) rfl rfl rfl)

theorem calm_allocprocStack (i : Slot) (k : Option Frame) (t : Table) : t.Calm (allocprocStack i k t) := by
  unfold allocprocStack
  cases k with
  | none => exact calm_modify (.freed rfl rfl rfl rfl)
  | some f => exact calm_modify (.same rfl rfl rfl rfl rfl)

theorem calm_forkFail (np : Slot) (t : Table) : t.Calm (forkFail np t) := calm_modify (.freed rfl rfl rfl rfl)

theorem calm_forkCopy (cur np : Slot) (d : Frame) (t : Table) : t.Calm (forkCopy cur np d t) := by
  unfold forkCopy
  exact calm_modify (.same rfl rfl rfl rfl rfl)

theorem calm_fork2Copy (cur np : Slot) (prio : Int) (d : Frame) (t : Table) : t.Calm (fork2Copy cur np prio d t) :=
  calm_trans (calm_forkCopy cur np d t) (calm_modify (.same rfl rfl rfl rfl rfl))

/-- A slot that is in use may become runnable. -/
theorem calm_forkPublish (h : (t.proc np).state ≠ .unused) : t.Calm (forkPublish np t) :=
  calm_modify (.awake nofun nofun h rfl rfl rfl)

/-- A slot may become free. -/
theorem calm_teardown (i : Slot) (t : Table) : t.Calm (teardown i t).table := by
  dsimp only [teardown]
  exact calm_modify (.freed rfl rfl rfl rfl)

/-! ## Exit -/

theorem calm_reparentOne (cur : Slot) (t : Table) (i : Slot) : t.Calm (reparentOne cur t i) := by
  unfold reparentOne
  split
  · have hmod : t.Calm (t.modify i fun p => { p with parent := some t.initproc }) := calm_modify (.same rfl rfl rfl rfl rfl)
    dsimp only
    split
    · exact calm_trans hmod (calm_wakeup1 _ _)
    · exact hmod
  · exact calm_refl t

/-- The children pass to init, one by one. -/
theorem calm_foldl_reparentOne (cur : Slot) (l : List Slot) (t : Table) : t.Calm (l.foldl (reparentOne cur) t) := by
  induction l generalizing t with
  | nil => exact calm_refl t
  | cons i l ih => exact calm_trans (calm_reparentOne cur t i) (ih _)

theorem calm_exitReparent (cur : Slot) (t : Table) : t.Calm (exitReparent cur t) :=
  calm_trans (calm_wakeup1 _ t) (calm_foldl_reparentOne cur slots _)

/-- Whoever still sleeps on its own slot after a `wakeup1` is not the one woken. -/
theorem asleep_wakeup1 {c : Option Chan} (hs : ((wakeup1 c t).proc p).state = .sleeping) : ((wakeup1 c t).proc p).chan ≠ c := by
  simp only [wakeup1] at hs ⊢
  split at hs
  · cases hs
  · rename_i hno
    rw [if_neg hno]
    exact fun hc => hno ⟨hs, hc⟩

/-- A turn of the loop leaves every zombie but the one it looks at as it is. -/
theorem reparentOne_zombie {j : Slot} (hij : i ≠ j) (hz : (t.proc i).state = .zombie) : (reparentOne cur t j).proc i = t.proc i := by
  unfold reparentOne
  split
  · dsimp only
    split
    · simp [wakeup1, Table.modify, hij, hz]
    · simp [Table.modify, hij]
  · rfl

/-- If init still sleeps after the loop of `exit`, no zombie has been passed to it. -/
theorem asleep_foldl_reparentOne {l : List Slot} (hs : ((l.foldl (reparentOne cur) t).proc p).state = .sleeping)
    (hc : (t.proc p).chan = some (.proc p)) : ∀ i ∈ l, (t.proc i).parent = some cur → (t.proc i).state = .zombie → p ≠ t.initproc := by
  induction l generalizing t with
  | nil => exact nofun
  | cons j l ih =>
    rw [List.foldl_cons] at hs
    have hcalm := (calm_reparentOne cur t j).proc p
    obtain ⟨hs', -⟩ := ((calm_foldl_reparentOne cur l _).proc p).sleeping hs
    have hc' : ((reparentOne cur t j).proc p).chan = some (.proc p) := (hcalm.sleeping hs').2.trans hc
    intro i hi hpar hz
    by_cases hij : i = j
    · subst hij
      rintro rfl
      have hz' : ((t.modify i fun p => { p with parent := some t.initproc }).proc i).state = .zombie := by
        simpa [Table.modify] using hz
      simp only [reparentOne, hpar, if_true, hz'] at hs' hc'
      exact asleep_wakeup1 hs' hc'
    · have hsame : (reparentOne cur t j).proc i = t.proc i := reparentOne_zombie hij hz
      have hmem : i ∈ l := (List.mem_cons.mp hi).resolve_left hij
      rw [← (life_reparentOne cur t j).2.1]
      exact ih hs hc' i hmem (by rw [hsame, hpar]) (by rw [hsame, hz])

theorem sleepOn_of_ne {c : Chan} (hq : q ≠ p) : (sleepOn p c t).proc q = t.proc q :=
  modify_proc_of_ne _ _ hq

/-- Apart from the parents, only the caller changes in an exit. -/
theorem exitTable_of_ne (hq : q ≠ cur) : (exitTable cur t).proc q = (exitReparent cur t).proc q := by
  unfold exitTable
  exact modify_proc_of_ne _ _ hq

theorem exitTable_self (cur : Slot) (t : Table) : ((exitTable cur t).proc cur).state = .zombie := by
  unfold exitTable
  rw [modify_proc_self]

theorem exitTable_ticks (cur : Slot) (t : Table) : (exitTable cur t).ticks = t.ticks := by
  unfold exitTable
  rw [modify_ticks]
  exact (calm_exitReparent cur t).ticks

/-- Who sleeps after `update_rtime` has slept before. -/
theorem asleep_updateRtime (hs : ((updateRtime t).proc p).state = .sleeping) :
    (t.proc p).state = .sleeping ∧ ((updateRtime t).proc p).chan = (t.proc p).chan := by
  simp only [updateRtime] at hs ⊢
  split at hs
  · rename_i hr
    rw [hr] at hs
    cases hs
  · rename_i hr
    rw [if_neg hr]
    exact ⟨hs, rfl⟩

/-- A new slot does not sleep. -/
theorem asleep_allocprocFound (hs : ((allocprocFound np t).proc p).state = .sleeping) :
    (t.proc p).state = .sleeping ∧ ((allocprocFound np t).proc p).chan = (t.proc p).chan := by
  by_cases hp : p = np
  · subst hp
    simp [allocprocFound, Table.modify] at hs
  · rw [allocprocFound_of_ne hp] at hs ⊢
    exact ⟨hs, rfl⟩

/-- Whoever sleeps after an `exit` slept before it, on the same channel. -/
theorem asleep_exit (hs : ((exitTable cur t).proc p).state = .sleeping) :
    (t.proc p).state = .sleeping ∧ ((exitTable cur t).proc p).chan = (t.proc p).chan := by
  have hp : p ≠ cur := by
    rintro rfl
    rw [exitTable_self] at hs
    cases hs
  rw [exitTable_of_ne hp] at hs ⊢
  exact ((calm_exitReparent cur t).proc p).sleeping hs

/-- Whoever still sleeps on its own slot after an `exit` slept there before, is not the parent of the process that has exited,
and has been passed no zombie. -/
theorem asleep_exitTable (hs : ((exitTable cur t).proc p).state = .sleeping) (hc : (t.proc p).chan = some (.proc p)) :
    (t.proc p).state = .sleeping ∧ (t.proc cur).parent ≠ some p ∧
      ∀ i, (t.proc i).parent = some cur → (t.proc i).state = .zombie → p ≠ t.initproc := by
  have hp : p ≠ cur := by
    rintro rfl
    rw [exitTable_self] at hs
    cases hs
  rw [exitTable_of_ne hp] at hs
  have hall := mem_slots
  unfold exitReparent at hs
  generalize slots = l at hs hall
  obtain ⟨hs1, -⟩ := ((calm_foldl_reparentOne cur l _).proc p).sleeping hs
  have hw := ((calm_wakeup1 ((t.proc cur).parent.map .proc) t).proc p).sleeping hs1
  refine ⟨hw.1, fun hpar => ?_, fun i hpar hz => ?_⟩
  · have hne := asleep_wakeup1 hs1
    rw [hw.2, hpar] at hne
    exact hne hc
  · have hi : (wakeup1 ((t.proc cur).parent.map .proc) t).proc i = t.proc i := by simp [wakeup1, hz]
    have hne := asleep_foldl_reparentOne hs (hw.2.trans hc) i (hall i) (by rw [hi, hpar]) (by rw [hi, hz])
    exact hne

/-- After `userinit` there is init. -/
theorem userinit_init (k d : Frame) : ((userinit k d).proc 0).state = .runnable ∧ ((userinit k d).proc 0).ctime = 0 ∧
    ((userinit k d).proc 0).rtime = 0 := by
  simp [userinit, forkPublish, allocprocStack, allocprocFound, Table.modify, Table.zero, int32]

/-- After `userinit` there is nobody else. -/
theorem userinit_unused (k d : Frame) (hi : i ≠ 0) : ((userinit k d).proc i).state = .unused := by
  simp [userinit, forkPublish, allocprocStack, allocprocFound, Table.modify, Table.zero, Proc.zero, hi]

/-! ## The steps -/

/-- What a step does. -/
inductive ProcCase (A : KernelAddrs) (s : ProcSt) : ProcAct → ProcSt → Prop
  /-- Nothing of note. -/
  | calm {a : ProcAct} {s' : ProcSt} (table : s.table.Calm s'.table)
      (waits : ∀ p w, s'.pc p = .waiting w → s.pc p = .waiting w) (inst : s'.inst = s.inst) (allocs : s'.allocs = s.allocs)
      (notExit : ∀ p, a ≠ .exit p) : ProcCase A s a s'
  /-- A process goes to sleep on an address. -/
  | sleep {p : Slot} {addr : Nat} (running : (s.table.proc p).state = .running) (place : ∀ w, s.pc p ≠ .waiting w) :
      ProcCase A s (.sleep p addr) { s with table := sleepOn p (.other addr) s.table }
  /-- A process goes to sleep in a wait, for there is no zombie for it. -/
  | waits {a : ProcAct} {p : Slot} {w : WaitCall} {t : Table} (table : s.table.Calm t) (life : t.life = s.table.life)
      (running : (t.proc p).state = .running) (none : ∀ i, (t.proc i).state = .zombie → w.mine p (t.proc i) = false)
      (notExit : ∀ q, a ≠ .exit q) :
      ProcCase A s a (({ s with table := sleepOn p (.proc p) t } : ProcSt).setPc p (.waiting w))
  /-- The timer ticks. -/
  | tick : ProcCase A s .tick { s with table := OsLab.tick A.ticks s.table }
  /-- The run times are updated. -/
  | updateRtime : ProcCase A s .updateRtime { s with table := OsLab.updateRtime s.table }
  /-- `allocproc` takes a slot. -/
  | claim {a : ProcAct} {p np : Slot} {prio : Option Int} (free : (s.table.proc np).state = .unused)
      (act : a = .fork p ∨ ∃ n, a = .fork2 p n) :
      ProcCase A s a
        { table := allocprocFound np s.table, pc := update s.pc p (.forkStack np prio),
          inst := update s.inst np s.allocs, allocs := s.allocs + 1,
          log := .born s.allocs s.table.nextpid :: s.log }
  /-- A process exits. -/
  | exit {p : Slot} (place : s.At p .exiting) :
      ProcCase A s (.exit p) (({ s with table := exitTable p s.table } : ProcSt).setPc p .user)

/-- Whoever sleeps after a step slept before it on the same channel, or has gone to sleep in it, on an address or in a wait. -/
theorem ProcCase.asleep (h : ProcCase A s a s') (hs : (s'.table.proc p).state = .sleeping) :
    ((s.table.proc p).state = .sleeping ∧ (s'.table.proc p).chan = (s.table.proc p).chan) ∨
      (∃ addr, a = .sleep p addr ∧ (s'.table.proc p).chan = some (.other addr)) ∨ (s'.table.proc p).chan = some (.proc p) := by
  cases h with
  | calm table waits inst allocs notExit => exact Or.inl ((table.proc p).sleeping hs)
  | tick => exact Or.inl (((calm_wakeup1 _ _).proc p).sleeping hs)
  | updateRtime => exact Or.inl (asleep_updateRtime hs)
  | claim free act => exact Or.inl (asleep_allocprocFound hs)
  | exit place => exact Or.inl (asleep_exit hs)
  | sleep running place =>
    rename_i q addr
    by_cases hp : p = q
    · subst hp
      exact Or.inr (Or.inl ⟨addr, rfl, by simp [sleepOn, Table.modify]⟩)
    · dsimp only at hs ⊢
      rw [sleepOn_of_ne hp] at hs ⊢
      exact Or.inl ⟨hs, rfl⟩
  | waits table life running none notExit =>
    rename_i q w t
    by_cases hp : p = q
    · subst hp
      exact Or.inr (Or.inr (by simp [ProcSt.setPc, sleepOn, Table.modify]))
    · simp only [ProcSt.setPc] at hs ⊢
      rw [sleepOn_of_ne hp] at hs ⊢
      exact Or.inl ((table.proc p).sleeping hs)

/-- Only one process has moved, and not into a wait. -/
theorem waits_update {f : Slot → ProcPc} {c : ProcPc} (hc : ∀ w, c ≠ .waiting w) (h : update f p c q = .waiting w) :
    f q = .waiting w := by
  by_cases hq : q = p
  · subst hq
    rw [update_self] at h
    exact absurd h (hc w)
  · rwa [update_of_ne hq] at h

/-- The scan of a wait that finds no zombie has looked at every child. -/
theorem waitScan_none {l : List Slot} {b c : Bool} (h : waitScan w cur t b l = .none c) :
    ∀ i ∈ l, (t.proc i).state = .zombie → w.mine cur (t.proc i) = false := by
  induction l generalizing b with
  | nil => exact nofun
  | cons j l ih =>
    simp only [waitScan] at h
    intro i hi hz
    rcases List.mem_cons.mp hi with rfl | hi
    · rw [if_pos hz] at h
      split at h
      · cases h
      · rename_i hno
        exact Bool.eq_false_iff.mpr hno
    · split at h
      · split at h
        · cases h
        · exact ih h i hi hz
      · exact ih h i hi hz

/-- A wait sleeps only when there is no zombie for it. -/
theorem waitPass_sleep {base : Nat} (h : waitPass base w cur t = some .sleep) :
    ∀ i, (t.proc i).state = .zombie → w.mine cur (t.proc i) = false := by
  unfold waitPass at h
  split at h
  · rw [Option.map_eq_some_iff] at h
    obtain ⟨r, -, hr⟩ := h
    cases hr
  · rename_i hs
    exact fun i => waitScan_none hs i (mem_slots i)

/-- One turn of a wait by a running process. The table may be the one that the dispatch before it has left. -/
theorem waitTurn_cases (hw : w.UserAddrs) (htab : s.table.Calm t) (hlife : t.life = s.table.life) (hrun : (t.proc cur).state = .running)
    (hx : ∀ p, a ≠ .exit p) (h : ({ s with table := t } : ProcSt).waitTurn A cur w = some s') : ProcCase A s a s' := by
  have huser : ∀ q w', update s.pc cur .user q = .waiting w' → s.pc q = .waiting w' := fun q w' =>
    waits_update nofun
  unfold ProcSt.waitTurn at h
  split at h
  · cases h
  · cases h
    exact .calm htab huser rfl rfl hx
  · rename_i hs
    cases h
    exact .waits htab hlife hrun (waitPass_sleep hs) hx
  · rename_i i r hp
    rcases waitPass_cases hw hp with hr | hr | ⟨j, hr, -, -⟩
    · cases hr
    · cases hr
    · cases hr
      split at h
      · cases h
        exact .calm (calm_trans htab (calm_teardown i t)) huser rfl rfl hx
      · cases h

/-- `fork` or `fork2`, up to the release in `allocproc`. -/
theorem beginFork_cases (prio : Option Int) (ha : a = .fork p ∨ ∃ n, a = .fork2 p n) : ProcCase A s a (s.beginFork p prio) := by
  unfold ProcSt.beginFork allocprocClaim
  cases hf : freeSlot s.table with
  | none =>
    refine .calm (calm_refl _) (fun _ _ => id) rfl rfl ?_
    rintro q rfl
    rcases ha with ha | ⟨n, ha⟩ <;> cases ha
  | some np =>
    have hfree : (s.table.proc np).state = .unused := by
      have := List.find?_some hf
      simpa using this
    exact .claim hfree ha

/-- A turn of a wait that finds nothing is calm. -/
theorem waitsIn_calm (h : WaitsIn s a p w t) : s.table.Calm t := by
  cases h with
  | dispatch hr => exact calm_dispatch hr
  | _ => exact calm_refl _

/-- What each step does, in a state that keeps the family in order. -/
theorem procStep_cases (hpc : PcOk s) (hF : (forest (view s)).Inv) (hok : UserWaitx s a) (h : procStep A s a = some s') :
    ProcCase A s a s' := by
  -- a step that leaves every process at its place, or moves one to a place outside the waits
  have hquiet : ∀ {t : Table} {l : List ProcEvent}, s.table.Calm t → (∀ p, a ≠ .exit p) → ProcCase A s a { s with table := t, log := l } :=
    fun ht ha => .calm ht (fun _ _ => id) rfl rfl ha
  have hmoved : ∀ {t : Table} {p : Slot} {c : ProcPc} {l : List ProcEvent}, s.table.Calm t → (∀ w, c ≠ .waiting w) → (∀ p, a ≠ .exit p) →
      ProcCase A s a { s with table := t, pc := update s.pc p c, log := l } :=
    fun ht hc ha => .calm ht (fun _ _ => waits_update hc) rfl rfl ha
  cases procMoves_of_procStep h with
  | turn hw hturn =>
    refine waitTurn_cases (waitsIn_userAddrs hpc.addrs hok hw) (waitsIn_calm hw) (waitsIn_life hw) (waitsIn_running hw) ?_ hturn
    rintro q rfl
    cases hw
  | dispatch hr => exact hquiet (calm_dispatch hr) (fun _ he => by cases he)
  | yield hr => exact hquiet (calm_yield hr) (fun _ he => by cases he)
  | sleep hp =>
    rcases hp with ⟨hr, hp⟩ | ⟨hr, hp⟩
    · exact .sleep hr (by rw [hp]; intro _ he; cases he)
    · exact .sleep hr (by rw [hp]; intro _ he; cases he)
  | wakeup => exact hquiet (calm_wakeup1 _ _) (fun _ he => by cases he)
  | tick => exact .tick
  | updateRtime => exact .updateRtime
  | fork => exact beginFork_cases none (Or.inl rfl)
  | fork2 => exact beginFork_cases _ (Or.inr ⟨_, rfl⟩)
  | refused ha =>
    refine hquiet (calm_refl _) ?_
    rintro q rfl
    rcases ha with ⟨b, hb⟩ | ⟨b, c, hb⟩ | ⟨b, hb⟩ <;> cases hb
  | noStack => exact hmoved (calm_allocprocStack _ none s.table) (fun _ he => by cases he) (fun _ he => by cases he)
  | stack => exact hmoved (calm_allocprocStack _ (some _) s.table) (fun _ he => by cases he) (fun _ he => by cases he)
  | noSpace => exact hmoved (calm_forkFail _ _) (fun _ he => by cases he) (fun _ he => by cases he)
  | space _ ht =>
    refine hmoved ?_ (fun _ he => by cases he) (fun _ he => by cases he)
    rcases ht with ⟨-, rfl⟩ | ⟨n, -, rfl⟩
    · exact calm_forkCopy _ _ _ s.table
    · exact calm_fork2Copy _ _ n _ s.table
  | @publish p np hp =>
    have hembryo : (s.table.proc np).state.phase = .embryo := (hF.makesLive p np (makes_iff.mpr (Or.inr (Or.inr (place_of hp))))).2.1
    have hused : (s.table.proc np).state ≠ .unused := by
      intro hu
      simp [hu, ProcState.phase] at hembryo
    exact hmoved (calm_forkPublish hused) (fun _ he => by cases he) (fun _ he => by cases he)
  | exitClose => exact hmoved (calm_exitClose _ _) (fun _ he => by cases he) (fun _ he => by cases he)
  | exit hp => exact .exit hp
  | kill | sigkill => exact hquiet (calm_sysKill _ _) (fun _ he => by cases he)
  | setPriority => exact hquiet (calm_sysSetPriority _ _ _) (fun _ he => by cases he)
  | fault => exact hquiet (calm_modify (.same rfl rfl rfl rfl rfl)) (fun _ he => by cases he)

/-! ## Who dies and who lives on -/

/-- A zombie that is there after a step other than an exit was there before it, with the same parent and pid. -/
theorem zombie_old {v v' : LifeSt} {b : LifeAct} (hF : (forest v).Inv) (h : v.step b = some v') (hb : ∀ p, b ≠ .exit p)
    (hz : (v'.life i).phase = .zombie) :
    (v.life i).phase = .zombie ∧ (v'.life i).parent = (v.life i).parent ∧ (v'.life i).pid = (v.life i).pid := by
  -- a slot that is set to something else than a zombie is not the one
  have hset : ∀ {j : Slot} {x : Life}, (update v.life j x i).phase = .zombie → (j = i → x.phase ≠ .zombie) →
      (v.life i).phase = .zombie ∧ (update v.life j x i).parent = (v.life i).parent ∧
        (update v.life j x i).pid = (v.life i).pid := by
    intro j x hzx hx
    by_cases hij : i = j
    · subst hij
      rw [update_self] at hzx
      exact absurd hzx (hx rfl)
    · rw [update_of_ne hij] at hzx ⊢
      exact ⟨hzx, rfl, rfl⟩
  have hembryo : ∀ {p j : Slot}, (forest v).Makes p j → (v.life j).phase ≠ .zombie := fun hm he => by
    have hm' : (v.life _).phase = .embryo := (hF.makesLive _ _ hm).2.1
    rw [hm'] at he
    cases he
  cases b <;> simp only [LifeSt.step, Option.ite_none_right_eq_some, Option.some.injEq] at h
  case killMiss pid =>
    subst h
    exact ⟨hz, rfl, rfl⟩
  case kill pid j =>
    obtain ⟨-, rfl⟩ := h
    by_cases hij : i = j
    · subst hij
      simp only [update_self] at hz ⊢
      exact ⟨hz, trivial, trivial⟩
    · simp only [update_of_ne hij] at hz ⊢
      exact ⟨hz, trivial, trivial⟩
  case fault p =>
    obtain ⟨hlive, rfl⟩ := h
    exact hset hz fun _ he => absurd (hlive.symm.trans he) fun he => by cases he
  case claim p j =>
    obtain ⟨-, rfl⟩ := h
    exact hset hz fun _ he => by cases he
  case noStack p j =>
    obtain ⟨-, rfl⟩ := h
    exact hset hz fun _ he => by cases he
  case stack p j f =>
    obtain ⟨hp, rfl⟩ := h
    exact hset hz fun _ => hembryo (makes_iff.mpr (Or.inl hp))
  case noSpace p j f =>
    obtain ⟨-, rfl⟩ := h
    exact hset hz fun _ he => by cases he
  case space p j d =>
    obtain ⟨hp, rfl⟩ := h
    exact hset hz fun _ => hembryo (makes_iff.mpr (Or.inr (Or.inl hp)))
  case publish p j =>
    obtain ⟨-, rfl⟩ := h
    exact hset hz fun _ he => by cases he
  case exit p => exact absurd rfl (hb p)
  case reap cur w j f d =>
    obtain ⟨-, rfl⟩ := h
    exact hset hz fun _ he => by cases he

/-- A live process lives on with its pid, unless it exits. -/
theorem live_kept {v v' : LifeSt} {b : LifeAct} (hF : (forest v).Inv) (h : v.step b = some v') (hb : b ≠ .exit i)
    (hl : (v.life i).phase = .live) : (v'.life i).phase = .live ∧ (v'.life i).pid = (v.life i).pid := by
  -- a slot that is set is another one, or stays live with its pid
  have hset : ∀ {j : Slot} {x : Life}, (j = i → x.phase = .live ∧ x.pid = (v.life i).pid) →
      (update v.life j x i).phase = .live ∧ (update v.life j x i).pid = (v.life i).pid := by
    intro j x hx
    by_cases hij : i = j
    · subst hij
      rw [update_self]
      exact hx rfl
    · rw [update_of_ne hij]
      exact ⟨hl, rfl⟩
  have hmade : ∀ {p : Slot}, ¬ (forest v).Makes p i := fun hm => by
    have hm' : (v.life i).phase = .embryo := (hF.makesLive _ _ hm).2.1
    rw [hm'] at hl
    cases hl
  cases b <;> simp only [LifeSt.step, Option.ite_none_right_eq_some, Option.some.injEq] at h
  case killMiss pid =>
    subst h
    exact ⟨hl, rfl⟩
  case kill pid j =>
    obtain ⟨-, rfl⟩ := h
    refine hset ?_
    rintro rfl
    exact ⟨hl, rfl⟩
  case fault p =>
    obtain ⟨-, rfl⟩ := h
    refine hset ?_
    rintro rfl
    exact ⟨hl, rfl⟩
  case claim p j =>
    obtain ⟨⟨-, -, hfree⟩, rfl⟩ := h
    refine hset ?_
    rintro rfl
    rw [hfree] at hl
    cases hl
  case noStack p j =>
    obtain ⟨hp, rfl⟩ := h
    refine hset ?_
    rintro rfl
    exact absurd (makes_iff.mpr (Or.inl hp)) hmade
  case stack p j f =>
    obtain ⟨hp, rfl⟩ := h
    refine hset ?_
    rintro rfl
    exact ⟨hl, rfl⟩
  case noSpace p j f =>
    obtain ⟨⟨hp, -⟩, rfl⟩ := h
    refine hset ?_
    rintro rfl
    exact absurd (makes_iff.mpr (Or.inr (Or.inl hp))) hmade
  case space p j d =>
    obtain ⟨-, rfl⟩ := h
    refine hset ?_
    rintro rfl
    exact ⟨hl, rfl⟩
  case publish p j =>
    obtain ⟨-, rfl⟩ := h
    refine hset ?_
    rintro rfl
    exact ⟨rfl, rfl⟩
  case exit p =>
    obtain ⟨-, rfl⟩ := h
    have hne : i ≠ p := fun he => hb (he ▸ rfl)
    simp only [if_neg hne]
    exact ⟨hl, trivial⟩
  case reap cur w j f d =>
    obtain ⟨⟨hz, -⟩, rfl⟩ := h
    refine hset ?_
    rintro rfl
    rw [hz] at hl
    cases hl

/-- What is known of the processes in every state reached. -/
structure ProcsOk (s : ProcSt) : Prop where
  pc : PcOk s
  family : (forest (view s)).Inv

/-- What the invariants come to for the table, in every run with user addresses. -/
theorem procsOk_of_reach (h : (procSys A).Reach UserWaitx s) : ProcsOk s where
  pc := pcOk_of_reach (fun _ _ => id) h
  family :=
    have hlife : lifeSys.Reach (fun _ _ => True) (view s) := view_reach (fun _ _ => id) (fun _ _ _ _ _ => trivial) h
    forest_inv hlife

end LifeAux

end OsLab
