import OsLab.Getppid
import OsLab.Theorems.ByPid
import OsLab.Theorems.ProcForest

/-!
# Is getppid linearizable?

Between the two reads of `sys_getppid` the parent may exit and be reaped, and its slot may be given to another process. The parent's
children then belong to init for good, so what the second read finds in the slot is not the pid of a parent any more. The call returns
the pid of a parent exactly when the slot still has the process that was in it (`getppid_linear_iff`).
-/

namespace OsLab

open Function (update update_self update_of_ne)

namespace GetppidAux

open LifeAux ByPidAux ProcForestAux

/-! ## One reader, from a distance -/

/-- What holds of the process `p` that has read the slot `r.slot` with the instance `r.inst` in it: the slot's process is still its live
parent, or it belongs to the root; and an instance that has gone from the slot has been reaped, or replaced by a later one. -/
structure Reading (v : LifeSt) (p : Slot) (r : PpidRead) : Prop where
  live : (v.life p).phase = .live
  parent : (v.life p).parent = some r.slot ∧ v.inst r.slot = r.inst ∧ (v.life r.slot).phase = .live ∨ (v.life p).parent = some v.root
  lt : r.inst < v.allocs
  same : v.inst r.slot = r.inst → (v.life r.slot).phase = .live ∨ (v.life r.slot).phase = .zombie ∨
    (v.life r.slot).phase = .free ∧ (v.life r.slot).pid = 0
  later : v.inst r.slot ≠ r.inst → r.inst < v.inst r.slot

variable {v v' : LifeSt} {p : Slot} {r : PpidRead} {i : Slot} {es : List ProcEvent} {A : KernelAddrs} {s : PpidSt}

/-- Once the slot's process is not live any more, the reader belongs to the root. -/
theorem Reading.orphan (h : Reading v p r) (hs : (v.life r.slot).phase ≠ .live) : (v.life p).parent = some v.root :=
  h.parent.resolve_left fun hl => hs hl.2.2

/-- A slot that is being made holds a later instance. -/
theorem Reading.ne_of_embryo (h : Reading v p r) (he : (v.life r.slot).phase = .embryo) : v.inst r.slot ≠ r.inst := by
  intro hi
  rcases h.same hi with h' | h' | ⟨h', -⟩ <;> rw [he] at h' <;> cases h'

/-- Another slot has changed, or the one that was read, which is not the reader's parent any more. -/
theorem Reading.set (h : Reading v p r) {x : Life} {q : Slot} {c : Place} (hi : i ≠ p)
    (hx : i = r.slot → (v.life p).parent = some v.root ∧ (v.inst r.slot = r.inst → x.phase = .live ∨ x.phase = .zombie ∨
      x.phase = .free ∧ x.pid = 0)) :
    Reading (v.set i x q c es) p r := by
  have hp : (v.set i x q c es).life p = v.life p := update_of_ne hi.symm _ _
  by_cases hs : i = r.slot
  · obtain ⟨hroot, hsame⟩ := hx hs
    refine ⟨by rw [hp]; exact h.live, Or.inr (by rw [hp]; exact hroot), h.lt, fun hinst => ?_, h.later⟩
    have hlife : (v.set i x q c es).life r.slot = x := by simp [LifeSt.set, hs]
    rw [hlife]
    exact hsame hinst
  · have hslot : (v.set i x q c es).life r.slot = v.life r.slot := update_of_ne (Ne.symm hs) _ _
    refine ⟨by rw [hp]; exact h.live, ?_, h.lt, ?_, h.later⟩
    · rw [hp, hslot]
      exact h.parent
    · rw [hslot]
      exact h.same

/-- A step on a slot that is being made. -/
theorem Reading.making (hF : (forest v).Inv) (h : Reading v p r) {q m : Slot} {x : Life} {c : Place} (hm : (forest v).Makes m i) :
    Reading (v.set i x q c es) p r := by
  have he : (v.life i).phase = .embryo := (hF.makesLive m i hm).2.1
  have hip : i ≠ p := by
    rintro rfl
    rw [h.live] at he
    cases he
  refine h.set hip fun hs => ?_
  subst hs
  refine ⟨h.orphan (by rw [he]; exact nofun), fun hinst => ?_⟩
  exact absurd hinst (h.ne_of_embryo he)

/-- A change of `killed` alone. -/
theorem Reading.marked (h : Reading v p r) : Reading { v with life := update v.life i { v.life i with killed := 1 }, log := es } p r := by
  have hkeep : ∀ {β : Type} (g : Life → β) (_ : ∀ x, g { x with killed := 1 } = g x) (j : Slot),
      g (update v.life i { v.life i with killed := 1 } j) = g (v.life j) := by
    intro β g hg j
    by_cases hj : j = i
    · subst hj
      rw [update_self, hg]
    · rw [update_of_ne hj]
  have hphase := hkeep Life.phase fun _ => rfl
  have hparent := hkeep Life.parent fun _ => rfl
  have hpid := hkeep Life.pid fun _ => rfl
  refine ⟨(hphase p).trans h.live, ?_, h.lt, fun hinst => ?_, h.later⟩
  · rw [hparent, hphase]
    exact h.parent
  · rw [hphase, hpid]
    exact h.same hinst

/-- The steps of the others keep it. -/
theorem Reading.step (hF : (forest v).Inv) {b : LifeAct} (hb : b ≠ .exit p)
    (h : Reading v p r) (hst : v.step b = some v') : Reading v' p r := by
  cases b with
  | killMiss pid =>
    cases hst
    exact ⟨h.live, h.parent, h.lt, h.same, h.later⟩
  | kill pid i | fault q =>
    obtain ⟨-, rfl⟩ := of_guard hst
    exact h.marked
  | claim q i =>
    obtain ⟨⟨-, -, hfree⟩, rfl⟩ := of_guard hst
    have hip : i ≠ p := by
      rintro rfl
      rw [h.live] at hfree
      cases hfree
    have hp : update v.life i { v.life i with phase := .embryo, pid := v.nextpid } p = v.life p :=
      update_of_ne hip.symm _ _
    have hlt : r.inst < v.allocs + 1 := Nat.lt_succ_of_lt h.lt
    by_cases hs : r.slot = i
    · -- the slot was free and gets a new instance
      have hnew : update v.inst i v.allocs r.slot = v.allocs := by rw [hs, update_self]
      have hroot := h.orphan (by rw [hs, hfree]; intro he; cases he)
      refine ⟨(congrArg Life.phase hp).trans h.live, Or.inr ((congrArg Life.parent hp).trans hroot), hlt, fun hinst => ?_, fun _ => ?_⟩
      · have := h.lt
        have hinst : v.allocs = r.inst := hnew.symm.trans hinst
        omega
      · exact h.lt.trans_eq hnew.symm
    · have hold : update v.inst i v.allocs r.slot = v.inst r.slot := update_of_ne hs _ _
      have hslot : update v.life i { v.life i with phase := .embryo, pid := v.nextpid } r.slot = v.life r.slot :=
        update_of_ne hs _ _
      refine ⟨(congrArg Life.phase hp).trans h.live, ?_, hlt, fun hinst => ?_, fun hinst => ?_⟩
      · simp only [LifeSt.set, hp, hslot, hold]
        exact h.parent
      · simp only [LifeSt.set, hslot]
        exact h.same (hold.symm.trans hinst)
      · exact (h.later fun he => hinst (hold.trans he)).trans_eq hold.symm
  | noStack q i | stack q i f =>
    obtain ⟨hplace, rfl⟩ := of_guard hst
    exact h.making hF (makes_iff.mpr (Or.inl hplace))
  | noSpace q i f =>
    obtain ⟨⟨hplace, -⟩, rfl⟩ := of_guard hst
    exact h.making hF (makes_iff.mpr (Or.inr (Or.inl hplace)))
  | space q i d =>
    obtain ⟨hplace, rfl⟩ := of_guard hst
    exact h.making hF (makes_iff.mpr (Or.inr (Or.inl hplace)))
  | publish q i =>
    obtain ⟨hplace, rfl⟩ := of_guard hst
    exact h.making hF (makes_iff.mpr (Or.inr (Or.inr hplace)))
  | exit q =>
    obtain ⟨⟨hq, hlive, -⟩, rfl⟩ := of_guard hst
    have hqp : p ≠ q := fun he => hb (he ▸ rfl)
    refine ⟨?_, ?_, h.lt, fun hinst => ?_, h.later⟩
    · simp only [if_neg hqp]
      exact h.live
    · -- the children of the one that exits go to the root, which is not it
      rcases h.parent with ⟨hpar, hinst, hl⟩ | hroot
      · by_cases hs : r.slot = q
        · right
          simp only [hpar, hs, if_true]
        · left
          have hne : (v.life p).parent ≠ some q := fun he => hs (Option.some.inj (hpar.symm.trans he))
          refine ⟨?_, hinst, ?_⟩
          · simp only [if_neg hne]
            exact hpar
          · simp only [if_neg hs]
            exact hl
      · right
        have hne : (v.life p).parent ≠ some q := fun he => hq (Option.some.inj (hroot.symm.trans he)).symm
        simp only [if_neg hne]
        exact hroot
    · by_cases hs : r.slot = q
      · exact Or.inr (Or.inl (by simp [hs]))
      · simp only [if_neg hs]
        exact h.same hinst
  | reap cur w i f d =>
    obtain ⟨⟨hz, -⟩, rfl⟩ := of_guard hst
    have hip : i ≠ p := by
      rintro rfl
      rw [h.live] at hz
      cases hz
    refine h.set hip fun hs => ⟨h.orphan (by rw [← hs, hz]; intro he; cases he), fun _ => Or.inr (Or.inr ⟨rfl, rfl⟩)⟩

/-! ## The readers in a run -/

/-- What a reader has seen: the pid of the instance that it has read, which is among them, and that of init. -/
structure Sees (r : PpidRead) : Prop where
  mem : int32 (r.inst + 1) ∈ r.seen
  only : ∀ x ∈ r.seen, x = int32 (r.inst + 1) ∨ x = int32 1

/-- Every reader but init is in order. -/
def ReadsOk (s : PpidSt) : Prop :=
  ∀ p r, s.reads p = some r → p ≠ s.procs.table.initproc → Reading (view s.procs) p r ∧ Sees r

theorem procs_reach (h : (ppidSys A).Reach UserWaitxPpid s) : (procSys A).Reach UserWaitx s.procs := by
  refine Sys.Reach.simulate (J := fun _ => True) (f := PpidSt.procs) (fun _ _ => trivial) ?_ ?_ h
  · rintro s ⟨k, d, rfl⟩
    exact ⟨k, d, rfl⟩
  · intro s a s' _ hok hst
    cases a with
    | proc a =>
      simp only [ppidSys, ppidStep, Option.ite_none_right_eq_some, Option.map_eq_some_iff] at hst
      obtain ⟨-, t, ht, rfl⟩ := hst
      exact Or.inr ⟨a, hok, ht⟩
    | readParent p =>
      simp only [ppidSys, ppidStep, Option.ite_none_right_eq_some] at hst
      obtain ⟨-, hst⟩ := hst
      left
      split at hst <;> cases hst <;> rfl
    | readPid p =>
      simp only [ppidSys, ppidStep] at hst
      left
      split at hst
      · cases hst
      · obtain ⟨-, rfl⟩ := of_guard hst
        rfl

/-- The pid that a reader sees after a step is one of the two. -/
theorem Reading.parentPid {s : ProcSt} {p : Slot} {r : PpidRead} (hF : (forest (view s)).Inv) (hL : LifeInv (view s))
    (h : Reading (view s) p r) : ∀ x ∈ parentPid s.table p, x = int32 (r.inst + 1) ∨ x = int32 1 := by
  intro x hx
  simp only [OsLab.parentPid, Option.mem_toList, Option.map_eq_some_iff] at hx
  obtain ⟨j, hj, rfl⟩ := hx
  rcases h.parent with ⟨hpar, hinst, hlive⟩ | hroot
  · left
    obtain rfl : j = r.slot := Option.some.inj (hj.symm.trans hpar)
    have hpid : (s.table.proc r.slot).pid = int32 (s.inst r.slot + 1) := hL.pid r.slot (by rw [hlive]; exact nofun)
    have hinst : s.inst r.slot = r.inst := hinst
    rw [hpid, hinst]
  · right
    obtain rfl : j = s.table.initproc := Option.some.inj (hj.symm.trans hroot)
    have hlive : ((view s).life s.table.initproc).phase = .live := hF.rootLive
    have hpid : (s.table.proc s.table.initproc).pid = int32 (s.inst s.table.initproc + 1) :=
      hL.pid s.table.initproc (by rw [hlive]; exact nofun)
    have hinst : s.inst s.table.initproc = 0 := hF.rootInst
    rw [hpid, hinst]
    rfl

theorem ReadsOk.step {s' : PpidSt} {a : PpidAct} (hr : (procSys A).Reach UserWaitx s.procs) (hI : ReadsOk s) (hok : UserWaitxPpid s a)
    (hst : ppidStep A s a = some s') : ReadsOk s' := by
  have hlife : lifeSys.Reach (fun _ _ => True) (view s.procs) := view_reach (fun _ _ => id) (fun _ _ _ _ _ => trivial) hr
  have hF := forest_inv hlife
  have hL := lifeInv_of_reach hlife
  cases a with
  | proc a =>
    simp only [ppidStep, Option.ite_none_right_eq_some, Option.map_eq_some_iff] at hst
    obtain ⟨hadm, t, ht, rfl⟩ := hst
    have hr' : (procSys A).Reach UserWaitx t := .step a hr hok ht
    have hlife' : lifeSys.Reach (fun _ _ => True) (view t) := view_reach (fun _ _ => id) (fun _ _ _ _ _ => trivial) hr'
    have hpc := pcOk_of_reach (fun _ _ => id) hr
    intro p r hp hne
    simp only [PpidSt.watch, Option.map_eq_some_iff] at hp hne
    obtain ⟨r, hp, rfl⟩ := hp
    have hkeep : t.table.initproc = s.procs.table.initproc ∧ (Reading (view s.procs) p r → Reading (view t) p r) := by
      rcases procStep_view hpc hok ht with he | ⟨b, hb, hstep⟩
      · exact ⟨congrArg LifeSt.root he, fun h => he ▸ h⟩
      · refine ⟨root_step hstep, fun h => h.step hF ?_ hstep⟩
        rintro rfl
        obtain rfl : a = .exit p := hb
        simp [PpidSt.admits, ProcAct.caller, hp] at hadm
    obtain ⟨h1, h2⟩ := hI p r hp (hkeep.1 ▸ hne)
    have h1 := hkeep.2 h1
    refine ⟨⟨h1.live, h1.parent, h1.lt, h1.same, h1.later⟩, List.mem_append_right _ h2.mem, fun x hx => ?_⟩
    exact (List.mem_append.mp hx).elim (h1.parentPid (forest_inv hlife') (lifeInv_of_reach hlife') x) (h2.only x)
  | readParent p =>
    simp only [ppidStep, Option.ite_none_right_eq_some] at hst
    obtain ⟨⟨hat, -⟩, hst⟩ := hst
    split at hst
    · cases hst
      exact hI
    · rename_i j hj
      cases hst
      intro q r hq hne
      by_cases hqp : q = p
      · subst hqp
        simp only [update_self, Option.some.injEq] at hq
        subst hq
        have hlive := live_of_running hat.1
        obtain ⟨k, hk, hkl, -⟩ := hF.parentLive q (Or.inl hlive) hne
        obtain rfl : j = k := Option.some.inj (hj.symm.trans hk)
        have hkl : ((view s.procs).life j).phase = .live := hkl
        have hfree : ((view s.procs).life j).phase ≠ .free := by rw [hkl]; exact nofun
        have hpid : (s.procs.table.proc j).pid = int32 (s.procs.inst j + 1) := hL.pid j hfree
        refine ⟨⟨hlive, Or.inl ⟨hj, rfl, hkl⟩, hF.instLt j hfree, fun _ => Or.inl hkl, fun hne => absurd rfl hne⟩, ?_, fun x hx => ?_⟩
        · exact List.mem_singleton.mpr hpid.symm
        · exact Or.inl ((List.mem_singleton.mp hx).trans hpid)
      · simp only [update_of_ne hqp] at hq
        exact hI q r hq hne
  | readPid p =>
    simp only [ppidStep] at hst
    split at hst
    · cases hst
    · obtain ⟨-, rfl⟩ := of_guard hst
      intro q r hq hne
      by_cases hqp : q = p
      · subst hqp
        simp at hq
      · simp only [update_of_ne hqp] at hq
        exact hI q r hq hne

theorem readsOk_of_reach (h : (ppidSys A).Reach UserWaitxPpid s) : ReadsOk s := by
  refine Sys.Reach.invariant_of (J := fun s => (procSys A).Reach UserWaitx s.procs) (I := ReadsOk) (fun _ => procs_reach) ?_
    (fun s a s' hJ hI hok hst => hI.step hJ hok hst) h
  rintro s ⟨k, d, rfl⟩ p r hp
  cases hp

/-- The second read finds the pid of a parent exactly when the slot still has its process. -/
theorem Reading.linear_iff {p : Slot} {r : PpidRead} (hr : lifeSys.Reach (fun _ _ => True) (view s.procs))
    (hn : s.procs.allocs < 2 ^ 31 - 1) (h : Reading (view s.procs) p r) (hs : Sees r) :
    (s.procs.table.proc r.slot).pid ∈ r.seen ∧ (s.procs.table.proc r.slot).pid ≠ 0 ↔ s.Holds r := by
  have hlt : r.inst < s.procs.allocs := h.lt
  have hval : int32 (r.inst + 1) = r.inst + 1 := int32_of_lt (by omega) (by omega)
  constructor
  · rintro ⟨hmem, hne⟩
    obtain ⟨hpid, hbound⟩ := (pidInv_of_reach hr).pid r.slot hne
    have hpid : (s.procs.table.proc r.slot).pid = int32 (s.procs.inst r.slot + 1) := hpid
    have hbound : s.procs.inst r.slot < s.procs.allocs := hbound
    have hpidval : int32 (s.procs.inst r.slot + 1) = s.procs.inst r.slot + 1 := int32_of_lt (by omega) (by omega)
    have hone : int32 1 = 1 := by decide
    have hinst : s.procs.inst r.slot = r.inst := by
      by_contra hdiff
      have hlater : r.inst < s.procs.inst r.slot := h.later hdiff
      rcases hs.only _ hmem with he | he <;> omega
    refine ⟨hinst, fun hunused => ?_⟩
    have hfree : ((view s.procs).life r.slot).phase = .free := by simp [view, Table.life, Proc.life, hunused, ProcState.phase]
    rcases h.same hinst with h' | h' | ⟨-, h'⟩
    · rw [hfree] at h'
      cases h'
    · rw [hfree] at h'
      cases h'
    · exact hne h'
  · rintro ⟨hinst, hused⟩
    have hpid : (s.procs.table.proc r.slot).pid = int32 (s.procs.inst r.slot + 1) :=
      (lifeInv_of_reach hr).pid r.slot (phase_of_used hused)
    rw [hinst] at hpid
    refine ⟨hpid ▸ hs.mem, ?_⟩
    omega

end GetppidAux

open GetppidAux LifeAux

/-- In every run in which `waitx` is given user addresses, while `allocproc` has succeeded fewer than 2^31 - 1 times: a `sys_getppid` of a
process other than init returns the pid that its parent had at some moment of the call, and not 0, exactly when the slot that it has read
still has the process that was in it. -/
theorem getppid_linear_iff (A : KernelAddrs) (s s' : PpidSt) (a : PpidAct) (ret : PpidReturn) (h : (ppidSys A).Reach UserWaitxPpid s)
    (hn : s.procs.allocs < 2 ^ 31 - 1) (hst : ppidStep A s a = some s') (hret : s'.log = ret :: s.log)
    (hinit : ret.caller ≠ s.procs.table.initproc) : ret.Linear ↔ ∃ r, s.reads ret.caller = some r ∧ s.Holds r := by
  have hlife : lifeSys.Reach (fun _ _ => True) (view s.procs) :=
    view_reach (fun _ _ => id) (fun _ _ _ _ _ => trivial) (procs_reach h)
  cases a with
  | proc a =>
    simp only [ppidStep, Option.ite_none_right_eq_some, Option.map_eq_some_iff] at hst
    obtain ⟨-, t, -, rfl⟩ := hst
    simp [PpidSt.watch] at hret
  | readParent p =>
    -- a process other than init has a parent, so this read does not return
    simp only [ppidStep, Option.ite_none_right_eq_some] at hst
    obtain ⟨⟨hat, -⟩, hst⟩ := hst
    split at hst
    · rename_i hnone
      cases hst
      obtain rfl : (⟨p, -1, []⟩ : PpidReturn) = ret := (List.cons.inj hret).1
      obtain ⟨j, hj, -⟩ := (forest_inv hlife).parentLive p (Or.inl (live_of_running hat.1)) hinit
      cases hnone.symm.trans hj
    · cases hst
      simp at hret
  | readPid p =>
    simp only [ppidStep] at hst
    split at hst
    · cases hst
    · rename_i r hr
      obtain ⟨-, rfl⟩ := of_guard hst
      obtain rfl : (⟨p, (s.procs.table.proc r.slot).pid, r.seen⟩ : PpidReturn) = ret := (List.cons.inj hret).1
      obtain ⟨hread, hsees⟩ := readsOk_of_reach h p r hr hinit
      refine (hread.linear_iff hlife hn hsees).trans ⟨fun hh => ⟨r, hr, hh⟩, ?_⟩
      rintro ⟨r', hr', hh⟩
      obtain rfl : r = r' := Option.some.inj (hr.symm.trans hr')
      exact hh

/-- init forks a child, which forks another, and that one reads its parent pointer. -/
def grandchildReads : List PpidAct :=
  [.dispatch 0, .fork 0, .forkStack 0 (some 3), .forkCopy 0 (some 4), .forkPublish 0, .dispatch 1, .fork 1, .forkStack 1 (some 5),
    .forkCopy 1 (some 6), .forkPublish 1, .dispatch 2].map .proc ++ [.readParent 2]

/-- The state between its two reads. -/
def grandchildState : PpidSt := ((ppidSys sampleAddrs).run (.boot 1 2) grandchildReads).get (by decide +kernel)

/-- The state when the call has returned. -/
def grandchildReturned : PpidSt := (ppidStep sampleAddrs grandchildState (.readPid 2)).get (by decide +kernel)

theorem getppid_linear_grandchild : grandchildReturned.log = [⟨2, 2, [2]⟩] ∧ (⟨2, 2, [2]⟩ : PpidReturn).Linear := by
  have hreach : (ppidSys sampleAddrs).Reach UserWaitxPpid grandchildState := by
    refine Sys.Reach.run (.init ⟨1, 2, rfl⟩) ?_ (Option.some_get _).symm
    simp [grandchildReads, UserWaitxPpid, UserWaitx]
  have hlog : grandchildReturned.log = ⟨2, 2, [2]⟩ :: grandchildState.log := by decide +kernel
  have hread : grandchildState.reads 2 = some ⟨1, 1, [2]⟩ := by decide +kernel
  refine ⟨by decide +kernel, ?_⟩
  exact (getppid_linear_iff sampleAddrs grandchildState grandchildReturned (.readPid 2) ⟨2, 2, [2]⟩ hreach (by decide +kernel)
    (Option.some_get _).symm hlog (by decide +kernel)).mpr ⟨_, hread, by decide +kernel⟩

/-- Its parent exits and is reaped by init, and then it reads the pid. -/
def parentReaped : List PpidAct :=
  grandchildReads ++ [.proc (.exitClose 1), .proc (.exit 1), .proc (.wait 0), .readPid 2]

/-- The state that run ends in. -/
def parentReapedState : PpidSt := ((ppidSys sampleAddrs).run (.boot 1 2) parentReaped).get (by decide +kernel)

/-- The call has returned 0, and its parents had the pids 2 and 1. -/
theorem getppid_returns_zero : (ppidSys sampleAddrs).Reach UserWaitxPpid parentReapedState ∧
    parentReapedState.log = [⟨2, 0, [1, 1, 2, 2]⟩] ∧ ¬ (⟨2, 0, [1, 1, 2, 2]⟩ : PpidReturn).Linear := by
  refine ⟨Sys.Reach.run (.init ⟨1, 2, rfl⟩) ?_ (Option.some_get _).symm, by decide +kernel, fun hl => hl.2 rfl⟩
  simp [parentReaped, grandchildReads, UserWaitxPpid, UserWaitx]

end OsLab
