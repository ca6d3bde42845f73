import OsLab.Lemmas.ShortRuns

/-!
# Page ownership

A page is free or in use, and the teardown of an address space frees pages that nobody else refers to. That is so as long as no
call tears down a mapping of a shared region (`page_ownership`). A process that gives up the page of a region with `sbrk` frees
a page that `shmtable` goes on to hand out (`sbrk_frees_shared`).
-/

namespace OsLab

/-- The free list has no page twice and no page that a process has mapped or that a table of shared pages records, and no page
has been freed while it was free. -/
structure PagesOwned (s : Kern) : Prop where
  nodup : s.phys.freelist.Nodup
  unmapped : ∀ i d v, (s.table.proc i).state ≠ .unused → (s.table.proc i).pgdir = some d → v < UPAGES →
    Mapped s.phys.mem d v → frameAt s.phys.mem d v ∉ s.phys.freelist
  regions : ∀ r f, (s.regions r).page = some f → f ∉ s.phys.freelist
  keys : ∀ k f, s.shmPages k = some f → f ∉ s.phys.freelist
  freedOnce : s.phys.refreed = false

/-- Where there are owners that fit, a page that is in use is not free. -/
theorem KernOk.pagesOwned {L : Layout} {strict : Bool} {lim : Nat} {own : Own} {sh : Slot → Share} {s : Kern}
    (h : KernOk L strict lim own sh s) : PagesOwned s where
  nodup := h.phys.nodup
  unmapped i d v hi hd hv hm hf := by
    obtain ⟨d', k, hlive⟩ := h.lives i hi
    obtain rfl : d' = d := hlive.pgdir_eq hd
    have ho := (hlive.space.page v hv hm).2
    rw [(h.phys.free_iff _).mp hf] at ho
    exact Share.owner_ne_free _ _ _ ho.symm
  regions r f hr hf := by
    have ho := (h.regions r f).mpr hr
    rw [(h.phys.free_iff f).mp hf] at ho
    cases ho
  keys k f hk hf := by
    have ho := (h.keys k f hk).1
    rw [(h.phys.free_iff f).mp hf] at ho
    cases ho
  freedOnce := h.phys.fresh

/-- In every state of a run of calls that tear down no mapping of a shared region, and whose arguments do not lead the kernel
astray, every page is free or in use and never both, and no page was freed twice. -/
theorem page_ownership {L : Layout} {base : Nat} {s : Kern} (h : (memSys L base).Reach (MemOk L base) s) : PagesOwned s := by
  obtain ⟨own, sh, hk⟩ := kernInv_of_memOk h
  exact hk.pagesOwned

/-- The first process has mapped a region: its page is in use, and so is not free. -/
theorem page_ownership_shmget : ∃ s f, (memSys sampleLayout 0x80112d54).Reach (MemOk sampleLayout 0x80112d54) s ∧
    (s.regions 0).page = some f ∧ f ∉ s.phys.freelist ∧ PagesOwned s := by
  obtain ⟨s0, s, f, hb, hst, -, -, -, -, hreg, -⟩ := boot_shmget 0x80112d54 sampleBoot
  have hr0 : (memSys sampleLayout 0x80112d54).Reach (MemOk sampleLayout 0x80112d54) s0 := .init ⟨_, hb⟩
  have hok : MemOk sampleLayout 0x80112d54 s0 ⟨0, .shmget (some 0)⟩ := ⟨trivial, trivial⟩
  have hr := hr0.step _ hok hst
  have hpage : (s.regions 0).page = some f := by rw [hreg]
  exact ⟨s, f, hr, hpage, (page_ownership hr).regions 0 f hpage, page_ownership hr⟩

/-- `shmget(0)` and `sbrk(-4096)` by the first process: the page is on the free list, and `shmtable` records it. -/
theorem sbrk_frees_shared : ∃ s f, (memSys sampleLayout 0x80112d54).Reachable s ∧ f ∈ s.phys.freelist ∧
    (s.regions 0).page = some f ∧ ¬ PagesOwned s := by
  obtain ⟨s, f, hr, hf, hreg, -⟩ := sbrk_frees_region 0x80112d54 sampleBoot
  have hpage : (s.regions 0).page = some f := by rw [hreg]
  exact ⟨s, f, hr, hf, hpage, fun h => h.regions 0 f hpage hf⟩

end OsLab
