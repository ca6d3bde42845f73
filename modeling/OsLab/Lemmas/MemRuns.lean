import OsLab.Lemmas.MemCalls
import OsLab.MemGuard

/-!
# Runs of the memory calls

The owners fit the state that `main` leaves (`boot_kernOk`), and every call that keeps memory in order keeps them fitting
(`kernInv_step`), so that they fit in every state of a run of such calls (`kernInv_of_reach`).
-/

namespace OsLab

open Cmd

variable {L : Layout} {base : Nat} {strict : Bool} {lim : Nat} {own : Own} {sh : Slot → Share} {s s' : Kern} {a : MemAct}
  {i : Slot} {d k : Frame}

/-! ## One call -/

/-- Where no page of `shmtable` is mapped no region shows. -/
theorem KernOk.share_none {lo hi : Nat} (h : KernOk L strict lim own sh s) (hs : SharesNone s i lo hi) {v : Nat} (hlo : lo ≤ v)
    (hhi : v < hi) : sh i v = none := by
  rcases hsh : sh i v with _ | r
  · rfl
  have hused : (s.table.proc i).state ≠ .unused := fun hu => by
    rw [h.idle i hu] at hsh
    cases hsh
  obtain ⟨d, k, hlive⟩ := h.lives i hused
  obtain ⟨hv, hm⟩ := hlive.space.shows v r hsh
  have ho := (hlive.space.page v hv hm).2.trans (Share.owner_some hsh)
  exact absurd ((h.regions r _).mp ho) (hs d hlive.pgdir v hlo hhi hm r)

/-- Who shows no region shares no page. -/
theorem KernOk.noShare (h : KernOk L strict lim own sh s) (hs : SharesNone s i 0 UPAGES) : sh i = noShare := by
  funext v
  by_cases hv : v < UPAGES
  · exact h.share_none hs v.zero_le hv
  · by_cases hu : (s.table.proc i).state = .unused
    · rw [h.idle i hu]
    obtain ⟨d, k, hlive⟩ := h.lives i hu
    rcases hsh : sh i v with _ | r
    · rfl
    · exact absurd (hlive.space.shows v r hsh).1 hv

/-- A call that keeps memory in order keeps the owners in step with the state. -/
theorem kernInv_step (hlim : lim ≤ KERNBASE) (hlim' : KERNBASE - 1 ≤ lim) (h : KernInv L strict lim s) (hok : MemOk L base s a)
    (hbelow : lim < KERNBASE → ShmgetBelow s a) (hpos : strict = true → SbrkPositive s a)
    (hst : memStep L base s a = some s') : KernInv L strict lim s' := by
  obtain ⟨own, sh, h⟩ := h
  obtain ⟨hkeep, hargs⟩ := hok
  obtain ⟨cur, call⟩ := a
  simp only [memStep, Option.ite_none_right_eq_some] at hst
  obtain ⟨hact, hst⟩ := hst
  have hused := hact.1
  split at hst
  next r s1 hrun =>
    cases hst
    -- what each call leaves is what its specification says
    have hcode : wp (MemAct.code L base ⟨cur, call⟩) (fun _ s' => KernInv L strict lim s') (fun _ => True) s := by
      cases call with
      | fork => exact wp_mono (forkWith_wp (forkCopies_fork cur) h hused) (fun _ _ h => h) fun _ _ => trivial
      | fork2 b =>
        cases b with
        | none => exact ⟨own, sh, h⟩
        | some n => exact wp_mono (fork2_wp h hused) (fun _ _ h => h) fun _ _ => trivial
      | exec c =>
        exact wp_mono (exec_wp h hlim hlim' hused hargs fun file im p hf hr => h.noShare (hkeep file im p hf hr))
          (fun _ _ h => h.1) fun _ he => he
      | exit => exact wp_mono (exit_wp h hused) (fun _ _ h => h) fun _ _ => trivial
      | wait w => exact waitCall_wp h hargs fun i r hp => h.noShare (hkeep i r hp)
      | sbrk b =>
        refine sysSbrk_wp h hlim hlim' hused (fun n hb hn v h1 h2 => ?_) fun n hb hs hn hp => ?_
        · subst hb
          exact h.share_none (hkeep hn) h1 h2
        · subst hb
          exact hpos hs hn hp
      | shmem b => exact wp_mono (sysShmem_wp h hlim hlim' hused) (fun _ _ h => h.1) fun _ he => he
      | shmget b =>
        refine wp_mono (sysShmget_wp h hlim hused fun hl => ?_) (fun _ _ h => h) fun _ _ => trivial
        exact Nat.le_trans (Nat.le_sub_one_of_lt (hbelow hl)) hlim'
      | shmemCount b =>
        cases b with
        | none => exact ⟨own, sh, h⟩
        | some n =>
          show wp (shmemCount n) _ _ s
          unfold shmemCount
          split <;> exact ⟨own, sh, h⟩
      | store va b => exact userStore_wp h hused
    have hinv := wp_ok hcode hrun
    exact hinv
  next => cases hst

/-! ## The start -/

/-- The owners when the allocator has been filled. -/
def bootOwn (rest : List Frame) : Own := fun f => if f ∈ bootList rest then .free else .outside

theorem bootOwn_physOk (b : BootData L) :
    PhysOk L (bootOwn b.rest) { freelist := bootList b.rest, mem := b.mem, refreed := false } where
  nodup := by
    refine List.nodup_append.mpr ⟨List.nodup_reverse.mpr List.nodup_range', b.rest_nodup, fun f hf g hg he => ?_⟩
    have h1 : 1024 ≤ f := by
      simp only [List.mem_reverse, List.mem_range'_1] at hf
      exact hf.1
    exact absurd (he ▸ (b.rest_range g hg).2) (Nat.not_lt.mpr h1)
  free_iff f := by
    unfold bootOwn
    split <;> simp_all
  range f hf := by
    have hmem : f ∈ bootList b.rest := by
      by_contra hno
      exact hf (if_neg hno)
    simp only [bootList, List.mem_append, List.mem_reverse, List.mem_range'_1] at hmem
    rcases hmem with ⟨h1, h2⟩ | hr
    · exact ⟨L.end_le.trans h1, h2⟩
    · exact ⟨(b.rest_range f hr).1, (b.rest_range f hr).2.trans (by decide)⟩
  fresh := rfl

/-- There is memory for more than fifty thousand pages. -/
theorem bootList_length (rest : List Frame) : 56320 ≤ (bootList rest).length := by
  simp only [bootList, List.length_append, List.length_reverse, List.length_range', NFRAMES, PHYSTOP, PGSIZE]
  omega

/-- `userinit` when memory is not short: the kernel stack and the address space of the first process. -/
theorem userinitPages_wp {p : Phys} {initcode : List UInt8} (hp : PhysOk L own p) (hown : ∀ f, own f = .free ∨ own f = .outside)
    (hinit : initcode.length < PGSIZE) (hlen : 2000 ≤ p.freelist.length) :
    wp (userinitPages L initcode) (fun r p' => ∃ own', PhysOk L own' p' ∧ own' r.1 = .stack 0 ∧
      Space true noShare own' p'.mem r.2 1 ∧ (∀ f r, own' f ≠ .region r) ∧
      p.freelist.length + absent p'.mem r.2 ≤ p'.freelist.length + 2000) (fun _ => False) p := by
  unfold userinitPages
  simp only [wp_bind]
  refine kalloc_wp hp (fun hl => by simp [hl] at hlen) fun k p1 hk hm hl hp1 => ?_
  have hlen1 : p.freelist.length = p1.freelist.length + 1 := by rw [hl]; rfl
  refine wp_call (setupkvm_wp hp1) fun r p2 h2 => ?_
  obtain ⟨own2, hp2, hl2, ⟨-, hshort⟩ | ⟨d, rfl, -, hs2, hkeep2, hb2⟩⟩ := h2
  · omega
  refine wp_call (inituvm_wp hp2 hs2 hinit (by omega)) fun _ p3 h3 => ?_
  obtain ⟨own3, hp3, hl3, hs3, hb3, hkeep3⟩ := h3
  have hk2 : own2 k = .loose := by rw [hkeep2 k (by simp)]; simp
  have hk3 : own3 k = .loose := by rw [hkeep3 k (by rw [hk2]; intro he; cases he), hk2]
  -- everything is an address space's, or free, or not the allocator's
  have hl : Local (fun _ => True) own own3 p.mem p3.mem := by
    have hl1 : Local (fun _ => True) own (Function.update own k .loose) p.mem p1.mem :=
      hm ▸ Local.of_own (by rw [hk]; trivial) trivial
    exact (hl1.trans (hl2.mono fun _ _ => trivial)).trans (hl3.mono fun _ _ => trivial)
  refine ⟨Function.update own3 k (.stack 0), hp3.relabel (by simp [hk3]) (by simp [hk3]) (fun he => by cases he),
    Function.update_self _ _ _, hs3.relabel (by simp [hk3, Owner.UsedBy]), fun f r => ?_, by dsimp only; omega⟩
  by_cases hf : f = k
  · rw [hf, Function.update_self]
    intro he; cases he
  rw [Function.update_of_ne hf]
  intro hr
  rcases hown f with ho | ho
  · have := hl.stay f (by rw [ho]; trivial)
    rw [hr] at this
    exact this
  · rw [hl.keep f (by rw [ho]; exact not_false), ho] at hr
    cases hr

theorem userinit_proc_self (k d : Frame) : ((userinit k d).proc 0).state = .runnable ∧
    ((userinit k d).proc 0).kstack = some k ∧ ((userinit k d).proc 0).pgdir = some d ∧
    ((userinit k d).proc 0).sz = PGSIZE := by
  simp [userinit, forkPublish, allocprocStack, allocprocFound]

theorem userinit_proc_other (k d : Frame) {i : Slot} (hi : i ≠ 0) : (userinit k d).proc i = Proc.zero := by
  simp [userinit, forkPublish, allocprocStack, allocprocFound, Table.zero, Table.modify, hi]

/-- `main` gets as far as the first process, and the owners fit the state that it leaves. There is memory to go on with. -/
theorem boot_kernOk (b : BootData L) : ∃ s own, Boot L b s ∧ KernOk L true (KERNBASE - 1) own (fun _ => noShare) s ∧
    (∀ i, (s.table.proc i).state ≠ .unused → i = 0) ∧ (s.table.proc 0).Active ∧ (s.table.proc 0).sz = PGSIZE ∧
    ∃ d, (s.table.proc 0).pgdir = some d ∧ absent s.phys.mem d + 50000 ≤ s.phys.freelist.length := by
  have hown : ∀ f, bootOwn b.rest f = .free ∨ bootOwn b.rest f = .outside := fun f => by
    unfold bootOwn
    split <;> simp
  have hlen := bootList_length b.rest
  have hp := bootOwn_physOk b
  unfold Boot
  generalize bootList b.rest = l at hlen hp ⊢
  have hwp := userinitPages_wp hp hown b.init_lt (le_trans (by decide) hlen)
  obtain ⟨⟨k, d⟩, p, hrun, own, hp, hk, hs, hreg, hb⟩ := exists_of_wp hwp
  obtain ⟨hst, hks, hpg, hsz⟩ := userinit_proc_self k d
  have hzero : ∀ i, ((userinit k d).proc i).state ≠ .unused → i = 0 := fun i hi => by
    by_contra hne
    exact hi (by rw [userinit_proc_other k d hne]; rfl)
  refine ⟨_, own, ⟨k, d, p, hrun, rfl⟩, ?_, hzero, ?_, hsz, d, hpg, ?_⟩
  · refine ⟨hp, fun i hi => ?_, fun _ _ => rfl, fun i j hi hj _ => (hzero i hi).trans (hzero j hj).symm, fun r f => ?_,
      nofun, fun r => ?_⟩
    · obtain rfl := hzero i hi
      refine ⟨d, k, hpg, hks, hk, ?_, ?_⟩
      · rw [hsz]
        decide
      · rw [hsz]
        exact hs
    · exact ⟨fun h => absurd h (hreg f r), nofun⟩
    · simp
  · exact ⟨by rw [hst]; exact nofun, by rw [hst]; exact nofun, by rw [hst]; exact nofun⟩
  · dsimp only at hb ⊢
    omega

theorem Boot.unique {b : BootData L} (h : Boot L b s) (h' : Boot L b s') : s = s' := by
  obtain ⟨k, d, p, hrun, rfl⟩ := h
  obtain ⟨k', d', p', hrun', rfl⟩ := h'
  rw [hrun] at hrun'
  cases hrun'
  rfl

/-- The strict form is the stronger one. -/
theorem KernOk.weaken (h : KernOk L true (KERNBASE - 1) own sh s) (hlim : KERNBASE - 1 ≤ lim) :
    KernOk L strict lim own sh s where
  phys := h.phys
  lives i hi := by
    obtain ⟨d, k, hlive⟩ := h.lives i hi
    exact ⟨d, k, hlive.pgdir, hlive.kstack, hlive.stack, hlive.size.trans hlim, hlive.space.weaken⟩
  idle := h.idle
  apart := h.apart
  regions := h.regions
  keys := h.keys
  counts := h.counts

/-! ## Whole runs -/

/-- In every state of a run of calls that keep memory in order there are owners that fit. -/
theorem kernInv_of_reach {ok : Kern → MemAct → Prop} (hlim : lim ≤ KERNBASE) (hlim' : KERNBASE - 1 ≤ lim)
    (hok : ∀ s a, ok s a → MemOk L base s a) (hbelow : ∀ s a, ok s a → lim < KERNBASE → ShmgetBelow s a)
    (hpos : ∀ s a, ok s a → strict = true → SbrkPositive s a) (h : (memSys L base).Reach ok s) : KernInv L strict lim s := by
  refine h.invariant (fun s hs => ?_) fun s a s' hi ha hst => kernInv_step hlim hlim' hi (hok s a ha) (hbelow s a ha)
    (hpos s a ha) hst
  obtain ⟨b, hb⟩ := hs
  obtain ⟨s0, own, hb0, hk, -⟩ := boot_kernOk b
  rw [hb.unique hb0]
  exact ⟨own, _, hk.weaken hlim'⟩

/-- The owners that fit every state of a run of calls that keep memory in order. -/
theorem kernInv_of_memOk (h : (memSys L base).Reach (MemOk L base) s) : KernInv L false KERNBASE s :=
  kernInv_of_reach le_rfl (Nat.sub_le _ _) (fun _ _ h => h) (fun _ _ _ hl => absurd hl (lt_irrefl _)) (fun _ _ _ => nofun) h

end OsLab
