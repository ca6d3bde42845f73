import OsLab.Lemmas.ShortRuns

/-!
# The counts of the shared regions

`shmget` counts the mappings that it makes, and nothing counts those that go. While no call tears down a mapping of a region,
`shmem_count` is the number of places where the page of the region is mapped (`shmem_count_exact`): `fork` copies the page, so
that the child has none. A process that gives the page up with `sbrk` leaves the count behind (`shmem_count_stale`), and so do
`exec` and the reaping of a child.
-/

namespace OsLab

/-- The user pages of the process in slot `i` at which the page `f` is mapped. -/
def Kern.mapsOf (s : Kern) (i : Slot) (f : Frame) : Finset Nat :=
  match (s.table.proc i).pgdir with
  | none => ∅
  | some d => (Finset.range UPAGES).filter fun v => Mapped s.phys.mem d v ∧ frameAt s.phys.mem d v = f

/-- The mappings of the page of a region, over the processes that have not been reaped. -/
def Kern.mappings (s : Kern) (r : Fin NSHM) : Nat :=
  match (s.regions r).page with
  | none => 0
  | some f => ∑ i, if (s.table.proc i).state = .unused then 0 else (s.mapsOf i f).card

variable {L : Layout} {base : Nat} {strict : Bool} {lim : Nat} {own : Own} {sh : Slot → Share} {s : Kern} {r : Fin NSHM}

/-- The page of a region is mapped where the region shows. -/
theorem KernOk.card_mapsOf {f : Frame} {i : Slot} (h : KernOk L strict lim own sh s) (hf : (s.regions r).page = some f)
    (hi : (s.table.proc i).state ≠ .unused) : (s.mapsOf i f).card = (sh i).count r := by
  obtain ⟨d, k, hlive⟩ := h.lives i hi
  have heq : s.mapsOf i f = (Finset.range UPAGES).filter fun v => sh i v = some r := by
    unfold Kern.mapsOf
    rw [hlive.pgdir]
    ext v
    simp only [Finset.mem_filter, Finset.mem_range, and_congr_right_iff]
    refine fun hv => ⟨fun ⟨hm, he⟩ => h.share_of_frame hi hlive.pgdir hv hm (by rw [hf, he]), fun hs => ?_⟩
    obtain ⟨-, hm⟩ := hlive.space.shows v r hs
    have ho := (hlive.space.page v hv hm).2.trans (Share.owner_some hs)
    rw [h.regions, hf] at ho
    exact ⟨hm, (Option.some.inj ho).symm⟩
  rw [heq, Share.count]

/-- Where there are owners that fit, the count of a region is the number of its mappings. -/
theorem KernOk.refcnt_eq (h : KernOk L strict lim own sh s) : (s.regions r).refcnt = s.mappings r := by
  rw [h.counts r]
  unfold Kern.mappings
  rcases hf : (s.regions r).page with _ | f
  · have hzero : ∀ i, (sh i).count r = 0 := fun i => h.count_zero hf i
    simp [hzero]
  · refine congrArg Nat.cast (Finset.sum_congr rfl fun i _ => ?_)
    by_cases hi : (s.table.proc i).state = .unused
    · rw [if_pos hi, h.idle i hi, count_noShare]
    · rw [if_neg hi, h.card_mapsOf hf hi]

/-- In every state of a run of calls that tear down no mapping of a shared region, `shmem_count` returns the number of mappings
of the page of the region, and 0 when the region has no page. -/
theorem shmem_count_exact (h : (memSys L base).Reach (MemOk L base) s) (id : Fin NSHM) :
    sysShmemCount (some (id : Nat)) s = .ok ((s.mappings id : Int), s) ∧
      ((s.regions id).page = none → sysShmemCount (some (id : Nat)) s = .ok (0, s)) := by
  obtain ⟨own, sh, hk⟩ := kernInv_of_memOk h
  have hrun : sysShmemCount (some (id : Nat)) s = .ok ((s.regions id).refcnt, s) := by
    unfold sysShmemCount shmemCount
    simp only [argIndex_ofNat]
    rfl
  rw [hrun, hk.refcnt_eq]
  refine ⟨rfl, fun hno => ?_⟩
  unfold Kern.mappings
  rw [hno]
  rfl

/-- One mapping, and a count of one. -/
theorem shmem_count_exact_shmget : ∃ s, (memSys sampleLayout 0x80112d54).Reach (MemOk sampleLayout 0x80112d54) s ∧
    s.mappings 0 = 1 ∧ sysShmemCount (some ((0 : Fin NSHM) : Nat)) s = .ok ((s.mappings 0 : Int), s) := by
  obtain ⟨s0, s, f, hb, hst, ⟨own, sh, hk⟩, -, -, -, hreg, -⟩ := boot_shmget 0x80112d54 sampleBoot
  have hr0 : (memSys sampleLayout 0x80112d54).Reach (MemOk sampleLayout 0x80112d54) s0 := .init ⟨_, hb⟩
  have hok : MemOk sampleLayout 0x80112d54 s0 ⟨0, .shmget (some 0)⟩ := ⟨trivial, trivial⟩
  have hr := hr0.step _ hok hst
  have hcount : s.mappings 0 = 1 := by
    have h := hk.refcnt_eq (r := 0)
    rw [hreg] at h
    exact (Nat.cast_inj.mp h).symm
  exact ⟨s, hr, hcount, (shmem_count_exact hr 0).1⟩

/-- `shmget(0)` and `sbrk(-4096)` by the first process: nobody has the page mapped, and the count is one. -/
theorem shmem_count_stale : ∃ s, (memSys sampleLayout 0x80112d54).Reachable s ∧ s.mappings 0 = 0 ∧
    sysShmemCount (some ((0 : Fin NSHM) : Nat)) s = .ok (1, s) := by
  obtain ⟨s, f, hr, -, hreg, hno⟩ := sbrk_frees_region 0x80112d54 sampleBoot
  refine ⟨s, hr, ?_, ?_⟩
  · unfold Kern.mappings
    rw [hreg]
    refine Finset.sum_eq_zero fun i _ => ?_
    by_cases hi : (s.table.proc i).state = .unused
    · rw [if_pos hi]
    · rw [if_neg hi]
      unfold Kern.mapsOf
      rcases hd : (s.table.proc i).pgdir with _ | d
      · rfl
      · refine Finset.card_eq_zero.mpr (Finset.filter_eq_empty_iff.mpr fun v hv hm => ?_)
        exact hno i d v hi hd (Finset.mem_range.mp hv) hm.1 hm.2
  · unfold sysShmemCount shmemCount
    simp only [argIndex_ofNat]
    show Except.ok ((s.regions 0).refcnt, s) = _
    rw [hreg]

end OsLab
