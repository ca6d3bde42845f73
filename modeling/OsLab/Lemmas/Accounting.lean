import OsLab.Accounting
import OsLab.Lemmas.ProcCases

/-!
# The times of the processes along a run

A process that is in use has been charged as often as `update_rtime` has found it `RUNNING`, and never beyond the clock: between
`ticks++` and `update_rtime` a process older than the tick is one charge behind (`TimesOk.lt`), which is the charge that
`update_rtime` is about to make. `AcctInv` holds of every state of a run in which only such processes are charged.
-/

namespace OsLab

namespace AcctAux

open LifeAux

/-- The slot holds a process, dead or alive. -/
abbrev Used (s : ProcSt) (i : Slot) : Prop := (s.table.proc i).state ≠ .unused

/-- The times of the process in the slot are in order. -/
structure TimesOk (s : AcctSt) (i : Slot) : Prop where
  count : (s.procs.table.proc i).rtime = s.timesRunning (s.procs.inst i)
  start : 0 ≤ (s.procs.table.proc i).ctime
  le : (s.procs.table.proc i).ctime + (s.procs.table.proc i).rtime ≤ s.ticked
  lt : s.due = true → (s.procs.table.proc i).ctime < s.ticked →
    (s.procs.table.proc i).ctime + (s.procs.table.proc i).rtime < s.ticked
  dead : (s.procs.table.proc i).state = .zombie →
    (s.procs.table.proc i).ctime + (s.procs.table.proc i).rtime ≤ (s.procs.table.proc i).etime ∧
      (s.procs.table.proc i).etime ≤ s.ticked

/-- A report is right, and its process is gone. -/
structure ReportOk (s : AcctSt) (r : TimeReport) : Prop where
  count : r.rtime = s.timesRunning r.inst
  wtime : r.wtime = r.etime - r.ctime - r.rtime
  nonneg : 0 ≤ r.wtime
  old : r.inst < s.procs.allocs
  gone : ∀ i, Used s.procs i → s.procs.inst i ≠ r.inst

/-- What holds in every state. -/
structure AcctInv (s : AcctSt) : Prop where
  clock : s.procs.table.ticks = s.ticked
  turns : s.updates.length + s.due.toNat = s.ticked
  fresh : ∀ n, s.procs.allocs ≤ n → s.timesRunning n = 0
  times : ∀ i, Used s.procs i → TimesOk s i
  reports : ∀ r ∈ s.reports, ReportOk s r

variable {A : KernelAddrs} {s s' : AcctSt} {a : ProcAct} {t : ProcSt} {rs : List TimeReport} {i : Slot} {r : TimeReport}

/-! ## Steps of the process calls -/

/-- The times of a process have been kept, and it has not died or come into being. -/
structure Steady (p p' : Proc) : Prop where
  zombie : p'.state = .zombie → p.state = .zombie
  used : p'.state ≠ .unused → p.state ≠ .unused
  ctime : p'.ctime = p.ctime
  etime : p'.etime = p.etime
  rtime : p'.rtime = p.rtime

theorem Steady.of_calm {p p' : Proc} (h : p.Calm p') : Steady p p' := ⟨h.zombie, h.used, h.ctime, h.etime, h.rtime⟩

/-- A process that goes to sleep was running. -/
theorem steady_sleepOn {t t' : Table} {p : Slot} {c : Chan} (h : t.Calm t') (hrun : (t'.proc p).state = .running) (i : Slot) :
    Steady (t.proc i) ((sleepOn p c t').proc i) := by
  have hi := Steady.of_calm (h.proc i)
  by_cases hip : i = p
  · subst hip
    have hused : (t'.proc i).state ≠ .unused := by simp [hrun]
    unfold sleepOn
    rw [modify_proc_self]
    exact ⟨nofun, fun _ => hi.used hused, hi.ctime, hi.etime, hi.rtime⟩
  · rw [sleepOn_of_ne hip]
    exact hi

/-- Whatever is in use after a step was in use before it, or has just been allocated. -/
theorem used_old (h : ProcCase A s.procs a t) (hi : Used t i) :
    (Used s.procs i ∧ t.inst i = s.procs.inst i) ∨ (t.inst i = s.procs.allocs ∧ s.procs.allocs < t.allocs) := by
  cases h with
  | calm table waits inst allocs notExit => exact Or.inl ⟨(table.proc i).used hi, congrFun inst i⟩
  | sleep running place => exact Or.inl ⟨(steady_sleepOn (calm_refl _) running i).used hi, rfl⟩
  | waits table life running none notExit => exact Or.inl ⟨(steady_sleepOn table running i).used hi, rfl⟩
  | tick => exact Or.inl ⟨((calm_wakeup1 _ _).proc i).used hi, rfl⟩
  | updateRtime =>
    refine Or.inl ⟨fun hu => hi ?_, rfl⟩
    simp [updateRtime, hu]
  | exit place =>
    rename_i p
    refine Or.inl ⟨?_, rfl⟩
    by_cases hip : i = p
    · subst hip
      simp [Used, place.1]
    · simp only [Used, ProcSt.setPc] at hi
      rw [exitTable_of_ne hip] at hi
      exact ((calm_exitReparent p _).proc i).used hi
  | claim free act =>
    rename_i p np prio
    by_cases hip : i = np
    · subst hip
      exact Or.inr ⟨Function.update_self .., Nat.lt_succ_self _⟩
    · refine Or.inl ⟨?_, Function.update_of_ne hip ..⟩
      simpa only [Used, allocprocFound_of_ne hip] using hi

/-- The count of the allocations does not go down. -/
theorem allocs_le (h : ProcCase A s.procs a t) : s.procs.allocs ≤ t.allocs := by
  cases h with
  | calm table waits inst allocs notExit => exact allocs.ge
  | claim free act => exact Nat.le_succ _
  | _ => exact le_rfl

/-- A report stays right while its process is not counted again. -/
theorem ReportOk.step (h : ReportOk s r) (hcase : ProcCase A s.procs a s'.procs)
    (hcount : s'.timesRunning r.inst = s.timesRunning r.inst) : ReportOk s' r where
  count := h.count.trans (congrArg _ hcount.symm)
  wtime := h.wtime
  nonneg := h.nonneg
  old := h.old.trans_le (allocs_le hcase)
  gone i hi := by
    rcases used_old hcase hi with ⟨hu, he⟩ | ⟨he, -⟩
    · rw [he]
      exact h.gone i hu
    · rw [he]
      exact h.old.ne'

/-- The times of a process that the step leaves alone. -/
theorem TimesOk.keep (h : TimesOk s i) (hS : Steady (s.procs.table.proc i) (t.table.proc i)) (hinst : t.inst i = s.procs.inst i) :
    TimesOk { s with procs := t, reports := rs } i := by
  constructor
  · simp only [hS.rtime, hinst]
    exact h.count
  · simp only [hS.ctime]
    exact h.start
  · simp only [hS.ctime, hS.rtime]
    exact h.le
  · simp only [hS.ctime, hS.rtime]
    exact h.lt
  · intro hz
    simp only [hS.ctime, hS.rtime, hS.etime]
    exact h.dead (hS.zombie hz)

/-- A step of the process calls that leaves the times alone. -/
theorem AcctInv.steady (hI : AcctInv s) (hS : ∀ i, Steady (s.procs.table.proc i) (t.table.proc i))
    (hticks : t.table.ticks = s.procs.table.ticks) (hinst : t.inst = s.procs.inst) (hallocs : t.allocs = s.procs.allocs)
    (hrs : ∀ r ∈ rs, ReportOk { s with procs := t, reports := rs } r) : AcctInv { s with procs := t, reports := rs } where
  clock := hticks.trans hI.clock
  turns := hI.turns
  fresh n hn := hI.fresh n (hallocs ▸ hn)
  times i hi := (hI.times i ((hS i).used hi)).keep (hS i) (congrFun hinst i)
  reports := hrs

/-- `allocproc` takes a slot, and notes the time. -/
theorem AcctInv.claim (hI : AcctInv s) (hfew : s.ticked < 2 ^ 31) {np : Slot} {pc : Slot → ProcPc} {log : List ProcEvent}
    (ht : t = { table := allocprocFound np s.procs.table, pc := pc, inst := Function.update s.procs.inst np s.procs.allocs,
                allocs := s.procs.allocs + 1, log := log })
    (hrs : ∀ r ∈ rs, ReportOk { s with procs := t, reports := rs } r) : AcctInv { s with procs := t, reports := rs } := by
  subst ht
  refine ⟨hI.clock, hI.turns, fun n hn => hI.fresh n (Nat.le_of_succ_le hn), fun i hi => ?_, hrs⟩
  by_cases hip : i = np
  · subst hip
    have hnow : int32 (s.procs.table.ticks : Int) = s.ticked := by
      rw [hI.clock]
      exact int32_of_lt (by omega) (by omega)
    have hzero := hI.fresh s.procs.allocs le_rfl
    constructor
    · simp only [allocprocFound, modify_proc_self, Function.update_self]
      exact congrArg _ hzero.symm
    · simp only [allocprocFound, modify_proc_self, hnow]
      omega
    · simp only [allocprocFound, modify_proc_self, hnow]
      omega
    · simp only [allocprocFound, modify_proc_self, hnow]
      omega
    · intro hz
      simp [allocprocFound] at hz
  · have hsame : (allocprocFound np s.procs.table).proc i = s.procs.table.proc i := allocprocFound_of_ne hip
    have hu : Used s.procs i := by
      simp only [Used, hsame] at hi
      exact hi
    refine (hI.times i hu).keep ?_ (Function.update_of_ne hip ..)
    simp only [hsame]
    exact ⟨id, id, rfl, rfl, rfl⟩

/-- A process exits, and notes the time. -/
theorem AcctInv.exit (hI : AcctInv s) (hfew : s.ticked < 2 ^ 31) {p : Slot} (hat : s.procs.At p .exiting)
    (ht : t = ({ s.procs with table := exitTable p s.procs.table } : ProcSt).setPc p .user)
    (hrs : ∀ r ∈ rs, ReportOk { s with procs := t, reports := rs } r) : AcctInv { s with procs := t, reports := rs } := by
  subst ht
  have hcalm := calm_exitReparent p s.procs.table
  refine ⟨(exitTable_ticks p s.procs.table).trans hI.clock, hI.turns, hI.fresh, fun i hi => ?_, hrs⟩
  by_cases hip : i = p
  · subst hip
    have hu : Used s.procs i := by simp [Used, hat.1]
    have hold := hI.times i hu
    have hi' := Steady.of_calm (hcalm.proc i)
    have hnow : int32 ((exitReparent i s.procs.table).ticks : Int) = s.ticked := by
      rw [hcalm.ticks, hI.clock]
      exact int32_of_lt (by omega) (by omega)
    have hself : (exitTable i s.procs.table).proc i =
        { (exitReparent i s.procs.table).proc i with etime := int32 (exitReparent i s.procs.table).ticks, state := .zombie } := by
      unfold exitTable
      rw [modify_proc_self]
    constructor
    · simp only [ProcSt.setPc, hself, hi'.rtime]
      exact hold.count
    · simp only [ProcSt.setPc, hself, hi'.ctime]
      exact hold.start
    · simp only [ProcSt.setPc, hself, hi'.ctime, hi'.rtime]
      exact hold.le
    · simp only [ProcSt.setPc, hself, hi'.ctime, hi'.rtime]
      exact hold.lt
    · intro _
      simp only [ProcSt.setPc, hself, hi'.ctime, hi'.rtime, hnow]
      exact ⟨hold.le, le_rfl⟩
  · have hS : Steady (s.procs.table.proc i) ((exitTable p s.procs.table).proc i) := by
      rw [exitTable_of_ne hip]
      exact .of_calm (hcalm.proc i)
    exact (hI.times i (hS.used hi)).keep hS rfl

/-! ## The timer -/

/-- `ticks++`. -/
theorem AcctInv.tick (hI : AcctInv s) (hfew : s.ticked + 1 < 2 ^ 31) (hdue : s.due = false)
    (hcase : ProcCase A s.procs a { s.procs with table := OsLab.tick A.ticks s.procs.table }) :
    AcctInv { s with procs := { s.procs with table := OsLab.tick A.ticks s.procs.table }, due := true,
                     ticked := s.ticked + 1 } where
  clock := by
    simp only [OsLab.tick, wakeup1, u32, hI.clock]
    omega
  turns := by
    have := hI.turns
    simp only [hdue, Bool.toNat_false, Bool.toNat_true] at this ⊢
    omega
  fresh := hI.fresh
  times i hi := by
    have hS : Steady (s.procs.table.proc i) ((OsLab.tick A.ticks s.procs.table).proc i) := .of_calm ((calm_wakeup1 _ _).proc i)
    have hold := hI.times i (hS.used hi)
    have hle := hold.le
    constructor
    · simp only [hS.rtime]
      exact hold.count
    · simp only [hS.ctime]
      exact hold.start
    · simp only [hS.ctime, hS.rtime]
      omega
    · simp only [hS.ctime, hS.rtime]
      omega
    · intro hz
      have := hold.dead (hS.zombie hz)
      simp only [hS.ctime, hS.rtime, hS.etime]
      omega
  reports r hr := (hI.reports r hr).step hcase rfl

theorem phase_of_used {p : ProcSt} (hi : Used p i) : (forest (view p)).phase i ≠ .free := by
  intro hfree
  have hphase : (p.table.proc i).state.phase = .free := hfree
  cases hs : (p.table.proc i).state with
  | unused => exact hi hs
  | _ => simp [hs, ProcState.phase] at hphase

/-- An instance runs when its slot does. -/
theorem runs_iff {p : ProcSt} (hF : (forest (view p)).Inv) (hi : Used p i) :
    p.runs (p.inst i) = true ↔ (p.table.proc i).state = .running := by
  simp only [ProcSt.runs, decide_eq_true_eq]
  constructor
  · rintro ⟨j, hj, he⟩
    have hj' : Used p j := by simp [Used, hj]
    have hij : j = i := hF.instInj j i (phase_of_used hj') (phase_of_used hi) he
    rwa [← hij]
  · exact fun hr => ⟨i, hr, rfl⟩

theorem timesRunning_cons {p : ProcSt} {due : Bool} (n : Nat) :
    ({ s with procs := p, due := due, updates := s.procs.runs :: s.updates } : AcctSt).timesRunning n =
      s.timesRunning n + if s.procs.runs n then 1 else 0 := by
  simp [AcctSt.timesRunning, List.countP_cons]

/-- Whoever is in use is one of those that `allocproc` has numbered. -/
theorem inst_lt {p : ProcSt} (hF : (forest (view p)).Inv) (hi : Used p i) : p.inst i < p.allocs :=
  hF.instLt i (phase_of_used hi)

/-- `update_rtime`, when every process that it charges is older than the tick. -/
theorem AcctInv.updateRtime (hI : AcctInv s) (hF : (forest (view s.procs)).Inv) (hfew : s.ticked < 2 ^ 31) (hdue : s.due = true)
    (hold : ∀ i, (s.procs.table.proc i).state = .running → (s.procs.table.proc i).ctime ≠ s.procs.table.ticks)
    (hcase : ProcCase A s.procs a { s.procs with table := OsLab.updateRtime s.procs.table }) :
    AcctInv { s with procs := { s.procs with table := OsLab.updateRtime s.procs.table }, due := false,
                     updates := s.procs.runs :: s.updates } where
  clock := hI.clock
  turns := by
    have := hI.turns
    simp only [hdue, Bool.toNat_true, Bool.toNat_false, List.length_cons] at this ⊢
    omega
  fresh n hn := by
    rw [timesRunning_cons, hI.fresh n hn]
    have hno : s.procs.runs n = false := by
      simp only [ProcSt.runs, decide_eq_false_iff_not]
      rintro ⟨j, hj, rfl⟩
      have := inst_lt (i := j) hF (by simp [Used, hj])
      exact absurd hn (by simpa using this)
    simp [hno]
  times i hi := by
    have hu : Used s.procs i := fun hu => hi (by simp [OsLab.updateRtime, hu])
    have ht := hI.times i hu
    have hcount := ht.count
    have hstart := ht.start
    have hle := ht.le
    by_cases hr : (s.procs.table.proc i).state = .running
    · -- charged: it was a charge behind, so it is not ahead of the clock now
      have hne := hold i hr
      rw [hI.clock] at hne
      have hlt := ht.lt hdue (by omega)
      have hsum : int32 ((s.procs.table.proc i).rtime + 1) = (s.procs.table.proc i).rtime + 1 :=
        int32_of_lt (by omega) (by omega)
      have hruns := (runs_iff hF hu).mpr hr
      constructor
      · simp only [timesRunning_cons, OsLab.updateRtime, if_pos hr, hsum, hruns, if_true]
        omega
      · simp only [OsLab.updateRtime, if_pos hr]
        exact hstart
      · simp only [OsLab.updateRtime, if_pos hr, hsum]
        omega
      · intro he; cases he
      · intro hz
        simp [OsLab.updateRtime, hr] at hz
    · have hruns : s.procs.runs (s.procs.inst i) = false := by
        rw [Bool.eq_false_iff]
        exact fun h => hr ((runs_iff hF hu).mp h)
      constructor
      · simp only [timesRunning_cons, OsLab.updateRtime, if_neg hr, hruns]
        simpa using hcount
      · simp only [OsLab.updateRtime, if_neg hr]
        exact hstart
      · simp only [OsLab.updateRtime, if_neg hr]
        exact hle
      · intro he; cases he
      · simp only [OsLab.updateRtime, if_neg hr]
        exact ht.dead
  reports r hr := by
    have hrep := hI.reports r hr
    refine hrep.step hcase ?_
    rw [timesRunning_cons]
    have hno : s.procs.runs r.inst = false := by
      simp only [ProcSt.runs, decide_eq_false_iff_not]
      rintro ⟨j, hj, he⟩
      exact hrep.gone j (by simp [Used, hj]) he
    simp [hno]

/-! ## What `waitx` reports -/

/-- A turn of the loop of a wait that finds a zombie frees its slot. -/
theorem waitTurn_frees {p p' : ProcSt} {cur : Slot} {w : WaitCall} (hw : w.UserAddrs)
    (hscan : waitScan w cur p.table false slots = .zombie i) (h : p.waitTurn A cur w = some p') :
    (p'.table.proc i).state = .unused := by
  have hpass : waitPass A.procs w cur p.table = some (.reaped i (teardown i p.table)) := by
    unfold waitPass
    rw [hscan]
    simp only [reap_eq_teardown hw, Option.map_some]
  unfold ProcSt.waitTurn at h
  rw [hpass] at h
  dsimp only at h
  split at h
  · cases h
    simp only [ProcSt.setPc, teardown, modify_proc_self]
  · cases h

/-- A turn of `waitx` by a running process reports a zombie, with its times, and frees its slot. -/
theorem mem_turnReport {p' : ProcSt} {t : Table} {cur : Slot} {w : WaitCall} (hw : w.UserAddrs)
    (h : ({ s.procs with table := t } : ProcSt).waitTurn A cur w = some p') (hr : r ∈ s.turnReport cur w t) :
    ∃ i, (t.proc i).state = .zombie ∧ (p'.table.proc i).state = .unused ∧
      r = { inst := s.procs.inst i, ctime := (t.proc i).ctime, etime := (t.proc i).etime, wtime := waitxWtime (t.proc i),
            rtime := (t.proc i).rtime } := by
  unfold AcctSt.turnReport at hr
  split at hr
  · split at hr
    · rename_i i hscan
      exact ⟨i, (waitScan_zombie hscan).1, waitTurn_frees hw hscan h, List.mem_singleton.mp hr⟩
    · cases hr
  · cases hr

/-- A step reports a zombie, with its times, and frees its slot. -/
theorem mem_report (hpc : PcOk s.procs) (hok : UserWaitx s.procs a) (h : procStep A s.procs a = some t) (hr : r ∈ s.report a) :
    ∃ i, (s.procs.table.proc i).state = .zombie ∧ (t.table.proc i).state = .unused ∧
      r = { inst := s.procs.inst i, ctime := (s.procs.table.proc i).ctime, etime := (s.procs.table.proc i).etime,
            wtime := waitxWtime (s.procs.table.proc i), rtime := (s.procs.table.proc i).rtime } := by
  unfold AcctSt.report at hr
  split at hr
  · rename_i p
    split at hr
    · rename_i w hw
      simp only [procStep, hw, Option.ite_none_right_eq_some] at h
      obtain ⟨i, hz, hfree, he⟩ := mem_turnReport (hpc.addrs p w hw) h.2 hr
      -- the zombie is not the process that has been dispatched
      have hip : i ≠ p := by
        rintro rfl
        simp [dispatch] at hz
      have hsame : (dispatch p s.procs.table).proc i = s.procs.table.proc i := modify_proc_of_ne _ _ hip
      rw [hsame] at hz he
      exact ⟨i, hz, hfree, he⟩
    · cases hr
  · rename_i p b c
    have hw : (WaitCall.waitx b c).UserAddrs := hok
    simp only [procStep, Option.ite_none_right_eq_some] at h
    exact mem_turnReport hw h.2 hr
  · cases hr

/-- What a step reports is right. -/
theorem AcctInv.new_report (hI : AcctInv s) (hJ : ProcsOk s.procs) (hfew : s.ticked < 2 ^ 31) (hok : UserWaitx s.procs a)
    (h : procStep A s.procs a = some t) (hr : r ∈ s.report a) : ReportOk { s with procs := t, reports := rs } r := by
  obtain ⟨i, hz, hfree, rfl⟩ := mem_report hJ.pc hok h hr
  have hcase := procStep_cases hJ.pc hJ.family hok h
  have hu : Used s.procs i := by simp [Used, hz]
  have ht := hI.times i hu
  have hdead := ht.dead hz
  have hcount := ht.count
  have hstart := ht.start
  have hwtime : waitxWtime (s.procs.table.proc i) =
      (s.procs.table.proc i).etime - (s.procs.table.proc i).ctime - (s.procs.table.proc i).rtime :=
    int32_of_lt (by omega) (by omega)
  refine ⟨hcount, hwtime, ?_, (inst_lt hJ.family hu).trans_le (allocs_le hcase), fun j hj => ?_⟩
  · simp only [hwtime]
    omega
  · rcases used_old hcase hj with ⟨huj, he⟩ | ⟨he, -⟩
    · rw [he]
      intro hij
      obtain rfl := hJ.family.instInj j i (phase_of_used huj) (phase_of_used hu) hij
      exact hj hfree
    · rw [he]
      exact (inst_lt hJ.family hu).ne'

/-! ## Runs -/

theorem userWaitx_of_chargesOld (hok : ChargesOld s a) : UserWaitx s.procs a := by
  cases a with
  | updateRtime => trivial
  | _ => exact hok

/-- A step of the process calls. -/
theorem AcctInv.call (hI : AcctInv s) (hJ : ProcsOk s.procs) (hfew : s.ticked < 2 ^ 31) (hok : UserWaitx s.procs a)
    (htick : a ≠ .tick) (hupd : a ≠ .updateRtime) (h : procStep A s.procs a = some t) :
    AcctInv { s with procs := t, reports := s.report a ++ s.reports } := by
  have hcase := procStep_cases hJ.pc hJ.family hok h
  have hrs : ∀ r ∈ s.report a ++ s.reports, ReportOk { s with procs := t, reports := s.report a ++ s.reports } r := by
    intro r hr
    rcases List.mem_append.mp hr with hnew | hold
    · exact hI.new_report hJ hfew hok h hnew
    · exact (hI.reports r hold).step hcase rfl
  cases hcase with
  | calm table waits inst allocs notExit => exact hI.steady (fun i => .of_calm (table.proc i)) table.ticks inst allocs hrs
  | sleep running place => exact hI.steady (steady_sleepOn (calm_refl _) running) rfl rfl rfl hrs
  | waits table life running none notExit => exact hI.steady (steady_sleepOn table running) table.ticks rfl rfl hrs
  | tick => exact absurd rfl htick
  | updateRtime => exact absurd rfl hupd
  | claim free act => exact hI.claim hfew rfl hrs
  | exit place => exact hI.exit hfew place rfl hrs

/-- Every step keeps the invariant. -/
theorem AcctInv.step (hI : s.ticked < 2 ^ 31 → AcctInv s) (hJ : ProcsOk s.procs) (hok : ChargesOld s a)
    (h : acctStep A s a = some s') (hfew : s'.ticked < 2 ^ 31) : AcctInv s' := by
  have huser := userWaitx_of_chargesOld hok
  unfold acctStep at h
  split at h
  · simp only [Option.ite_none_left_eq_some, Option.map_eq_some_iff] at h
    obtain ⟨hdue, t, ht, rfl⟩ := h
    dsimp only at hfew
    have hcase := procStep_cases hJ.pc hJ.family huser ht
    cases ht
    exact (hI (by omega)).tick hfew (by simpa using hdue) hcase
  · simp only [Option.ite_none_right_eq_some, Option.map_eq_some_iff] at h
    obtain ⟨hdue, t, ht, rfl⟩ := h
    have hcase := procStep_cases hJ.pc hJ.family huser ht
    cases ht
    exact (hI hfew).updateRtime hJ.family hfew hdue hok hcase
  · rename_i htick hupd
    obtain ⟨t, ht, rfl⟩ := Option.map_eq_some_iff.mp h
    exact (hI hfew).call hJ hfew huser htick hupd ht

/-- Seen from the process table, a run is a run of the process calls. -/
theorem procs_reach (h : (acctSys A).Reach ChargesOld s) : (procSys A).Reach UserWaitx s.procs := by
  refine Sys.Reach.simulate (J := fun _ => True) (f := AcctSt.procs) (fun _ _ => trivial) ?_ ?_ h
  · rintro t ⟨k, d, rfl⟩
    exact ⟨k, d, rfl⟩
  · intro u a u' _ hok hst
    refine Or.inr ⟨a, userWaitx_of_chargesOld hok, ?_⟩
    have hst : acctStep A u a = some u' := hst
    unfold acctStep at hst
    split at hst
    · simp only [Option.ite_none_left_eq_some, Option.map_eq_some_iff] at hst
      obtain ⟨-, t, ht, rfl⟩ := hst
      exact ht
    · simp only [Option.ite_none_right_eq_some, Option.map_eq_some_iff] at hst
      obtain ⟨-, t, ht, rfl⟩ := hst
      exact ht
    · obtain ⟨t, ht, rfl⟩ := Option.map_eq_some_iff.mp hst
      exact ht

theorem acctInv_boot (k d : Frame) : AcctInv (.boot k d) where
  clock := rfl
  turns := rfl
  fresh _ _ := rfl
  times i hi := by
    have h0 : i = 0 := by
      by_contra hne
      exact hi (userinit_unused k d hne)
    subst h0
    obtain ⟨hstate, hctime, hrtime⟩ := userinit_init k d
    refine ⟨hrtime, hctime.ge, ?_, nofun, fun hz => ?_⟩
    · rw [AcctSt.boot, ProcSt.boot, hctime, hrtime]
      rfl
    · cases hstate.symm.trans hz
  reports _ hr := by cases hr

/-- The times are in order until the ticks wrap. -/
theorem acctInv_of_reach (h : (acctSys A).Reach ChargesOld s) : s.ticked < 2 ^ 31 → AcctInv s := by
  refine Sys.Reach.invariant_of (J := fun s => ProcsOk s.procs) (I := fun s => s.ticked < 2 ^ 31 → AcctInv s)
    (fun t ht => procsOk_of_reach (procs_reach ht)) ?_ (fun t a t' hJ hI hok hst => AcctInv.step hI hJ hok hst) h
  rintro t ⟨k, d, rfl⟩ _
  exact acctInv_boot k d

end AcctAux

end OsLab
