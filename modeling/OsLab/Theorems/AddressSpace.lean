import OsLab.Lemmas.ShortRuns

/-!
# The shape of an address space

Which pages of a process are mapped is what its size says, in every run of calls that keep memory in order and in which no
`sbrk` takes a process that has a size to size zero (`address_space_shape`), and `fork` and `fork2` find every page of the
parent there. `deallocuvm` returns the new size, and `growproc` takes a size of zero for failure: `sbrk(-sz)` frees every page,
leaves `sz` as it was and returns -1, and a `fork` after that stops the machine (`sbrk_to_zero`).
-/

namespace OsLab

open Cmd

variable {L : Layout} {base : Nat} {strict : Bool} {lim : Nat} {own : Own} {sh : Slot → Share} {q : Share} {s : Kern} {p : Phys}
  {cur : Slot} {d : Frame}

/-- The user pages of every process that are mapped are those below its size, rounded up to pages. -/
def Shaped (s : Kern) : Prop :=
  ∀ i d, (s.table.proc i).state ≠ .unused → (s.table.proc i).pgdir = some d → ∀ v < UPAGES,
    (Mapped s.phys.mem d v ↔ v * PGSIZE < pgRoundUp (s.table.proc i).sz)

/-- The call keeps memory in order, and if it is `sbrk` it leaves the process some size. -/
def ShapeOk (L : Layout) (base : Nat) (s : Kern) (a : MemAct) : Prop := MemOk L base s a ∧ SbrkPositive s a

/-- Where there are owners that fit, and no page may be missing, none is. -/
theorem KernOk.shaped (h : KernOk L true lim own sh s) (hlim : lim ≤ KERNBASE) : Shaped s := by
  intro i d hi hd v hv
  obtain ⟨d', k, hlive⟩ := h.lives i hi
  obtain rfl : d' = d := hlive.pgdir_eq hd
  have hlt : v * PGSIZE < pages (s.table.proc i).sz * PGSIZE ↔ v < pages (s.table.proc i).sz :=
    Nat.mul_lt_mul_right (by decide)
  rw [pgRoundUp_eq (hlive.size.trans hlim), hlt]
  exact ⟨fun hm => (hlive.space.page v hv hm).1, fun hv => hlive.space.full rfl v hv⟩

/-- In every state of a run in which no `sbrk` takes a process to size zero, and no call tears down a mapping of a shared
region, the pages of every process are those that its size says, and `fork` and `fork2` return. -/
theorem address_space_shape (h : (memSys L base).Reach (ShapeOk L base) s) :
    Shaped s ∧ ∀ i, (s.table.proc i).Active →
      (∃ r s', fork L i s = .ok (r, s')) ∧ ∀ a, ∃ r s', sysFork2 L i a s = .ok (r, s') := by
  obtain ⟨own, sh, hk⟩ : KernInv L true KERNBASE s :=
    kernInv_of_reach le_rfl (Nat.sub_le _ _) (fun _ _ h => h.1) (fun _ _ _ hl => absurd hl (lt_irrefl _)) (fun _ _ h _ => h.2) h
  have hreturns : ∀ {x : KernM Int},
      wp x (fun _ s' => KernInv L true KERNBASE s') (fun e => true = false ∧ e = .copyuvmPresent) s →
      ∃ r s', x s = .ok (r, s') := by
    intro x hx
    obtain ⟨r, s', hrun, -⟩ := exists_of_wp (wp_mono hx (fun _ _ h => h) fun e he => absurd he.1 (by decide))
    exact ⟨r, s', hrun⟩
  refine ⟨hk.shaped le_rfl, fun i hact => ⟨hreturns (forkWith_wp (forkCopies_fork i) hk hact.1), fun a => ?_⟩⟩
  cases a with
  | none => exact ⟨-1, s, rfl⟩
  | some n => exact hreturns (fork2_wp hk hact.1)

/-- The first process has mapped a region: it has the two pages that its size says, and may fork. -/
theorem address_space_shape_shmget : ∃ s d, (memSys sampleLayout 0x80112d54).Reach (ShapeOk sampleLayout 0x80112d54) s ∧
    (s.table.proc 0).pgdir = some d ∧ (s.table.proc 0).sz = 2 * PGSIZE ∧ Mapped s.phys.mem d 1 ∧ ¬ Mapped s.phys.mem d 2 ∧
    ∃ r s', fork sampleLayout 0 s = .ok (r, s') := by
  obtain ⟨s0, s, f, hb, hst, -, -, hact, hsz, -, d, hd, -⟩ := boot_shmget 0x80112d54 sampleBoot
  have hr0 : (memSys sampleLayout 0x80112d54).Reach (ShapeOk sampleLayout 0x80112d54) s0 := .init ⟨_, hb⟩
  have hok : ShapeOk sampleLayout 0x80112d54 s0 ⟨0, .shmget (some 0)⟩ := ⟨⟨trivial, trivial⟩, trivial⟩
  have hr := hr0.step _ hok hst
  have hshape := (address_space_shape hr).1 0 d hact.1 hd
  rw [hsz] at hshape
  exact ⟨s, d, hr, hd, hsz, (hshape 1 (by decide)).mpr (by decide), fun hm => absurd ((hshape 2 (by decide)).mp hm) (by decide),
    ((address_space_shape hr).2 0 hact).1⟩

/-! ## What sbrk to size zero leads to -/

/-- `copyuvm` of an address space whose first page is missing. -/
theorem copyuvm_missing {sz : Nat} (hp : PhysOk L own p) (hs : Space strict q own p.mem d (pages sz)) (hsz : 0 < sz)
    (hno : ¬ Mapped p.mem d 0) (hlen : 1025 ≤ p.freelist.length) :
    wp (copyuvm L d sz) (fun _ _ => False) (fun e => e = .copyuvmPresent) p := by
  unfold copyuvm
  refine wp_call (setupkvm_wp hp) fun r p1 h1 => ?_
  obtain ⟨own1, hp1, hl1, ⟨-, hshort⟩ | ⟨e, rfl, hfree, -, -, -⟩⟩ := h1
  · omega
  have hs1 := hs.local hl1 (by rw [hs.dir]; exact nofun)
  have hpte : pte p1.mem d 0 = pte p.mem d 0 := hs.pte_congr
    (fun g hg => hl1.mem g (hg.usedBy.not_within (by rw [hs.dir]; exact nofun)) hg.kernelOnly) (by decide)
  have hturns : (sz + PGSIZE - 1) / PGSIZE = (sz - 1) / PGSIZE + 1 := by
    simp only [PGSIZE]
    omega
  rw [hturns]
  unfold copyLoop
  have hP := hs1.reach 0 (by simp only [pages, PGSIZE]; omega)
  simp only [wp_bind, if_pos hsz]
  rw [show (0 : Nat) = 0 * PGSIZE from rfl]
  refine walkpgdir_read (v := 0) (by decide) (fun _ => ?_) fun h => absurd hP (by rw [h]; decide)
  have heq : p1.mem (pteFrame (p1.mem d (0 / 1024))) (0 % 1024) = pte p1.mem d 0 := by rw [pte, if_pos hP]
  have hgone : hasP (pte p1.mem d 0) = false := by
    rw [hpte]
    simpa [Mapped] using hno
  simp only [wp_bind, wp_get, heq, hgone]
  rfl

/-- `fork` by a process whose first page is missing, when there is a slot and memory for the child. -/
theorem fork_missing {np : Slot} (hp : PhysOk L own s.phys) (hd : (s.table.proc cur).pgdir = some d)
    (hs : Space strict q own s.phys.mem d (pages (s.table.proc cur).sz)) (hsz : 0 < (s.table.proc cur).sz)
    (hno : ¬ Mapped s.phys.mem d 0) (hnp : freeSlot s.table = some np) (hne : cur ≠ np)
    (hlen : 1026 ≤ s.phys.freelist.length) : fork L cur s = .error .copyuvmPresent := by
  have hwp : wp (fork L cur) (fun _ _ => False) (fun e => e = .copyuvmPresent) s := by
    unfold fork forkWith allocprocClaim
    simp only [wp_bind, wp_get, hnp, wp_onTable, wp_onPhys]
    refine kalloc_wp hp (fun hl => by simp [hl] at hlen) fun k p1 hk hm hl hp1 => ?_
    have hcur : (allocprocStack np (some k) (allocprocFound np s.table)).proc cur = s.table.proc cur := by
      rw [allocprocStack_of_ne hne, allocprocFound_of_ne hne]
    have hlen1 : s.phys.freelist.length = p1.freelist.length + 1 := by rw [hl]; rfl
    simp only [wp_bind, wp_get, hcur, hd, wp_useFrame_some, wp_onPhys]
    have hs1 := hs.relabel (f := k) (o := .loose) (by simp [hk, Owner.UsedBy])
    rw [← hm] at hs1 hno
    exact wp_mono (copyuvm_missing hp1 hs1 hsz hno (by omega)) (fun _ _ h => h.elim) fun _ he => he
  rcases hrun : fork L cur s with e | ⟨r, s'⟩
  · rw [wp_error hwp hrun]
  · exact (wp_ok hwp hrun).elim

/-- `sbrk(-4096)` by the first process, which has 4096 bytes: its page is gone, its size is what it was, and `fork` stops the
machine. -/
theorem sbrk_to_zero : ∃ s d, (memSys sampleLayout 0x80112d54).Reachable s ∧ (s.table.proc 0).Active ∧
    (s.table.proc 0).pgdir = some d ∧ (s.table.proc 0).sz = PGSIZE ∧ ¬ Mapped s.phys.mem d 0 ∧
    fork sampleLayout 0 s = .error .copyuvmPresent := by
  obtain ⟨s, own, hb, hk, hone, hact, hsz, d, hd, hlen⟩ := boot_kernOk sampleBoot
  obtain ⟨d', k, hlive⟩ := hk.lives 0 hact.1
  obtain rfl : d' = d := hlive.pgdir_eq hd
  have hpg : pages (s.table.proc 0).sz = 1 := by rw [hsz]; decide
  obtain ⟨own1, p1, hu, hst⟩ := sbrk_step 0x80112d54 (-4096) hk.phys hact hlive (by decide) (by decide)
    (show 0 = uintOf ((s.table.proc 0).sz + (-4096)) by rw [hsz]; decide) (by rw [hsz]; decide) fun _ _ _ => rfl
  rw [if_pos rfl] at hst
  rw [hpg] at hu
  have hr0 : (memSys sampleLayout 0x80112d54).Reachable s := .init ⟨_, hb⟩
  have hno : ¬ Mapped p1.mem d' 0 := hu.gone 0 le_rfl (by decide)
  have hspace : Space false noShare own1 p1.mem d' 1 := by
    have h0 : Space false noShare own s.phys.mem d' 1 := by
      have := hlive.space
      rw [hpg] at this
      exact this.weaken
    exact h0.unmapped hu (by decide) le_rfl (by decide)
  -- what was free is free still
  have hsub : s.phys.freelist ⊆ p1.freelist := fun f hf => by
    rw [hu.phys.free_iff]
    rcases hu.hands f with he | ⟨he, -⟩
    · rw [he, (hk.phys.free_iff f).mp hf]
    · exact he
  have hlen1 := (hk.phys.nodup.subperm hsub).length_le
  refine ⟨_, d', hr0.step _ trivial hst, hact, hd, hsz, hno, ?_⟩
  rcases hfs : freeSlot s.table with _ | np
  · have hno1 := List.find?_eq_none.mp hfs 1 (List.mem_finRange 1)
    exact absurd (hone 1 (by simpa using hno1)) (by decide)
  · refine fork_missing (s := { s with phys := p1 }) hu.phys hd (by rw [hpg]; exact hspace) (by rw [hsz]; decide) hno
      hfs (fun he => hact.1 ?_) (by dsimp only; omega)
    rw [he]
    exact freeSlot_unused hfs

end OsLab
