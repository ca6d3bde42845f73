import OsLab.Lemmas.MemRuns

/-!
# Short runs from the start

What the first process gets from its first calls, when memory is not short: `shmget` maps the page of a region
(`shmget_step`), `sbrk` takes it away again and frees it (`sbrk_frees_region`), `exec` puts a guard page below the stack
(`exec_guard`).
-/

namespace OsLab

open Function (update update_self update_of_ne)
open Cmd

variable {L : Layout} {base : Nat} {strict : Bool} {lim : Nat} {own own' : Own} {sh : Slot → Share} {q : Share} {s s' : Kern}
  {cur : Slot} {d f k : Frame} {n v : Nat} {p : Phys} {E : Panic → Prop} {r : Fin NSHM}

/-- A call that returns is a step. -/
theorem memStep_of_code {a : MemAct} {r : Int} (hact : (s.table.proc a.cur).Active) (h : a.code L base s = .ok (r, s')) :
    memStep L base s a = some s' := by
  unfold memStep
  rw [if_pos hact, h]

theorem argIndex_ofNat {n : Nat} (j : Fin n) : argIndex n (j : Nat) = some j := by
  unfold argIndex
  rw [dif_pos ⟨Int.natCast_nonneg _, by simp⟩]
  simp

/-- `shmget` maps the page of the region after the last page of the process, when there are pages for it. -/
theorem shmget_step (base : Nat) (h : KernOk L strict lim own sh s) (hlim : lim ≤ KERNBASE) (hact : (s.table.proc cur).Active)
    (hd : (s.table.proc cur).pgdir = some d) (hbelow : (pages (s.table.proc cur).sz + 1) * PGSIZE ≤ lim) (j : Fin NSHM)
    (hlen : absent s.phys.mem d + (if (s.regions j).page = none then 1 else 0) ≤ s.phys.freelist.length) :
    ∃ s' f, memStep L base s ⟨cur, .shmget (some (j : Nat))⟩ = some s' ∧ KernInv L strict lim s' ∧
      s'.table = s.table.modify cur (fun q => { q with sz := (pages (s.table.proc cur).sz + 1) * PGSIZE }) ∧
      (s'.regions j).page = some f ∧ frameAt s'.phys.mem d (pages (s.table.proc cur).sz) = f ∧
      absent s'.phys.mem d ≤ s'.phys.freelist.length ∧
      ((s.regions j).page = none → (s'.regions j).refcnt = 1) := by
  have hU : pages (s.table.proc cur).sz < UPAGES := by
    have := hbelow.trans hlim
    simp only [UPAGES, KERNBASE, PGSIZE] at *
    omega
  have hwp : wp (MemAct.code L base ⟨cur, .shmget (some (j : Nat))⟩) _ _ s := shmget_wp _ h hlim hact.1 hd
  rcases hrun : MemAct.code L base ⟨cur, .shmget (some (j : Nat))⟩ s with e | ⟨r, s'⟩
  · exact absurd (wp_error hwp hrun).2 hU.ne
  have hpost := wp_ok hwp hrun
  simp only [argIndex_ofNat, reduceCtorEq, false_or, Option.some.injEq] at hpost
  obtain ⟨-, -, j', rfl, hno, hl⟩ | ⟨j', s0, own0, k, page, rfl, hk, hready, hlive, ho, hn, hpost⟩ := hpost
  · rw [if_pos hno, hl] at hlen
    exact absurd hlen (Nat.not_succ_le_zero _)
  have hlen0 : absent s0.phys.mem d ≤ s0.phys.freelist.length := by
    rw [hready.absent]
    have hl := hready.length
    by_cases hno : (s.regions j).page = none
    · rw [if_pos hno] at hlen
      omega
    · obtain ⟨g, hg⟩ := Option.ne_none_iff_exists'.mp hno
      rw [hready.kept g hg]
      exact (Nat.le_add_right _ _).trans hlen
  have hact0 : (s0.table.proc cur).state ≠ .unused := by rw [hready.table]; exact hact.1
  have htab := hready.table
  have hinv : KernInv L strict lim s' := hk.shmPost hact0 hlive (by rw [htab]; exact hU) (by rw [htab]; exact hbelow) hpost
  obtain ⟨-, -, hshort⟩ | ⟨-, own1, p1, -, -, hb, rfl, -, hpte⟩ := hpost
  · exact absurd hlen0 (Nat.not_le.mpr hshort)
  refine ⟨_, page, memStep_of_code hact hrun, hinv, ?_, ?_, ?_, ?_, fun hno => ?_⟩
  · rw [htab]
  · simpa using hready.page
  · rw [frameAt, hpte _ (lt_VPAGES hU), if_pos (by rw [htab]), pteFrame_entry page (by decide)]
  · dsimp only
    omega
  · simp [hready.fresh hno]
    rfl

/-- The first process has mapped the page of region 0, which has been zeroed for it. -/
theorem boot_shmget (base : Nat) (b : BootData L) : ∃ s0 s f, Boot L b s0 ∧
    memStep L base s0 ⟨0, .shmget (some 0)⟩ = some s ∧ KernInv L true (KERNBASE - 1) s ∧
    (∀ i, (s.table.proc i).state ≠ .unused → i = 0) ∧ (s.table.proc 0).Active ∧ (s.table.proc 0).sz = 2 * PGSIZE ∧
    s.regions 0 = { page := some f, refcnt := 1 } ∧
    ∃ d, (s.table.proc 0).pgdir = some d ∧ frameAt s.phys.mem d 1 = f ∧ absent s.phys.mem d ≤ s.phys.freelist.length := by
  obtain ⟨s0, own0, hb, hk0, hone, hact, hsz, d, hd, hlen⟩ := boot_kernOk b
  have hpg : pages (s0.table.proc 0).sz = 1 := by rw [hsz]; decide
  have hnone : (s0.regions 0).page = none := by
    obtain ⟨k, d, p, -, rfl⟩ := hb
    rfl
  obtain ⟨s1, f, hst, hinv, htab, hpage, hfr, hlen', hcnt⟩ :=
    shmget_step base hk0 (by decide) hact hd (by rw [hpg]; decide) 0 (by rw [if_pos hnone]; omega)
  rw [hpg] at htab hfr
  have hp : s1.table.proc 0 = { s0.table.proc 0 with sz := 2 * PGSIZE } := by rw [htab]; simp
  refine ⟨s0, s1, f, hb, hst, hinv, fun i hi => ?_, by rw [hp]; exact hact, by rw [hp], ?_, d, by rw [hp]; exact hd, hfr,
    hlen'⟩
  · by_contra hne
    refine hne (hone i ?_)
    simpa [htab, Table.modify, hne] using hi
  · exact congrArg₂ ShmRegion.mk hpage (hcnt hnone)

/-- The page of a region that shows once may pass for a page of the process. -/
theorem Space.claim {m : Mem} (h : Space strict q own m d n) (hv : q v = some r) (hone : ∀ u, q u = some r → u = v) :
    Space strict (update q v none) (update own (frameAt m d v) (.user d v)) m d n := by
  obtain ⟨hvU, hm⟩ := h.shows v r hv
  have ho := (h.page v hvU hm).2.trans (Share.owner_some hv)
  have htree : ∀ g, (own g).TreeOf d → g ≠ frameAt m d v := by
    rintro g hg rfl
    rw [ho] at hg
    exact hg
  refine ⟨h.toTables.congr (fun g hg => update_of_ne (htree g hg) _ _) fun _ _ => rfl, h.le, fun u hu hmu => ?_,
    fun u r' hu => ?_, h.reach, h.full, h.kern, h.dev, h.guarded⟩
  · obtain ⟨hlt, hou⟩ := h.page u hu hmu
    refine ⟨hlt, ?_⟩
    by_cases huv : u = v
    · subst huv
      rw [update_self, Share.owner_none (update_self _ _ _)]
    · have hne : frameAt m d u ≠ frameAt m d v := fun he => by
        rw [he, ho] at hou
        unfold Share.owner at hou
        split at hou
        · cases hou
        · rename_i r' hr'
          cases hou
          exact huv (hone u hr')
      rw [update_of_ne hne, hou]
      unfold Share.owner
      rw [update_of_ne huv]
  · by_cases huv : u = v
    · subst huv
      simp at hu
    · rw [update_of_ne huv] at hu
      exact h.shows u r' hu

/-- `sbrk` by a negative amount to a smaller size, which is not zero, of a process whose pages there are its own. -/
theorem sbrk_step (base : Nat) (amount : Int) {newsz : Nat} (hp : PhysOk L own s.phys) (hact : (s.table.proc cur).Active)
    (hlive : Lives strict lim own q s.phys.mem cur (s.table.proc cur) d k) (hlim : lim ≤ KERNBASE) (hneg : amount < 0)
    (hnew : newsz = uintOf ((s.table.proc cur).sz + amount)) (hlt : newsz < (s.table.proc cur).sz)
    (hnone : ∀ v, pages newsz ≤ v → v < pages (s.table.proc cur).sz → q v = none) :
    ∃ own' p', Unmapped L d (pages newsz) (pages (s.table.proc cur).sz) own own' s.phys p' ∧
      memStep L base s ⟨cur, .sbrk (some amount)⟩ = some (if newsz = 0 then { s with phys := p' } else
        { s with phys := p', table := s.table.modify cur fun q => { q with sz := newsz } }) := by
  have hpriv := hlive.space.private (pages_le (hlive.size.trans hlim)) hnone
  have hcode : wp (MemAct.code L base ⟨cur, .sbrk (some amount)⟩) (fun _ s' => ∃ own' p',
      Unmapped L d (pages newsz) (pages (s.table.proc cur).sz) own own' s.phys p' ∧
      s' = if newsz = 0 then { s with phys := p' } else
        { s with phys := p', table := s.table.modify cur fun q => { q with sz := newsz } }) (fun _ => False) s := by
    show wp (sysSbrk L cur (some amount)) _ _ s
    unfold sysSbrk
    simp only [wp_bind, wp_get]
    refine wp_mono (growproc_shrink hp hlive hlim hneg hnew hlt hpriv) (fun r s' h1 => ?_) fun _ he => he
    obtain ⟨own', p', hu, hs'⟩ := h1
    have hs : s' = if newsz = 0 then { s with phys := p' } else
        { s with phys := p', table := s.table.modify cur fun q => { q with sz := newsz } } := by
      obtain ⟨hz, -, rfl⟩ | ⟨hz, rfl⟩ := hs'
      · rw [if_pos hz]
      · rw [if_neg hz]
    simp only [wp_ite, wp_pure]
    exact ⟨fun _ => ⟨own', p', hu, hs⟩, fun _ => ⟨own', p', hu, hs⟩⟩
  obtain ⟨r, s', hrun, own', p', hu, rfl⟩ := exists_of_wp hcode
  exact ⟨own', p', hu, memStep_of_code hact hrun⟩

/-- The page of a region is where the region shows. -/
theorem KernOk.share_of_frame (h : KernOk L strict lim own sh s) (hused : (s.table.proc cur).state ≠ .unused)
    (hd : (s.table.proc cur).pgdir = some d) (hv : v < UPAGES) (hm : Mapped s.phys.mem d v)
    (hr : (s.regions r).page = some (frameAt s.phys.mem d v)) : sh cur v = some r := by
  obtain ⟨d', k, hlive⟩ := h.lives cur hused
  obtain rfl : d' = d := hlive.pgdir_eq hd
  have ho := (hlive.space.page v hv hm).2
  rw [(h.regions r _).mpr hr] at ho
  unfold Share.owner at ho
  split at ho
  · cases ho
  · rename_i r' hr'
    rw [hr', Owner.region.inj ho]

/-- A region with a count of one shows once. -/
theorem KernOk.shows_once {u : Nat} (h : KernOk L strict lim own sh s) (hone : (s.regions r).refcnt = 1) (hu : sh cur u = some r)
    (hv : sh cur v = some r) : u = v := by
  have hin : ∀ v, sh cur v = some r → v ∈ (Finset.range UPAGES).filter fun v => sh cur v = some r := fun v hv => by
    have hused : (s.table.proc cur).state ≠ .unused := fun hno => by
      rw [h.idle cur hno] at hv
      cases hv
    obtain ⟨d, k, hlive⟩ := h.lives cur hused
    simpa [hv] using (hlive.space.shows v r hv).1
  have hle : (sh cur).count r ≤ 1 := by
    have h1 := h.counts r
    have h2 := Finset.single_le_sum (f := fun i => (sh i).count r) (fun _ _ => Nat.zero_le _) (Finset.mem_univ cur)
    omega
  exact Finset.card_le_one.mp hle u (hin u hu) v (hin v hv)

/-- The first process maps the page of region 0 and gives it up with `sbrk`: the page goes to the free list, `shmtable` still
records it, with a count of one, and nobody has it mapped. -/
theorem sbrk_frees_region (base : Nat) (b : BootData L) : ∃ s f, (memSys L base).Reachable s ∧ f ∈ s.phys.freelist ∧
    s.regions 0 = { page := some f, refcnt := 1 } ∧
    ∀ i d v, (s.table.proc i).state ≠ .unused → (s.table.proc i).pgdir = some d → v < UPAGES → Mapped s.phys.mem d v →
      frameAt s.phys.mem d v ≠ f := by
  obtain ⟨s0, s1, f, hb, hst1, ⟨own1, sh1, hk1⟩, hone, hact1, hsz1, hreg, d, hd1, hfr1, -⟩ := boot_shmget base b
  have hpage1 : (s1.regions 0).page = some f := by rw [hreg]
  obtain ⟨d', k, hlive⟩ := hk1.lives 0 hact1.1
  obtain rfl : d' = d := hlive.pgdir_eq hd1
  have hpg1 : pages (s1.table.proc 0).sz = 2 := by rw [hsz1]; decide
  have hm1 : Mapped s1.phys.mem d' 1 := hlive.space.full rfl 1 (by rw [hpg1]; decide)
  have hsh : sh1 0 1 = some 0 := hk1.share_of_frame hact1.1 hd1 (by decide) hm1 (by rw [hpage1, hfr1])
  have hof : own1 f = .region 0 := (hk1.regions 0 f).mpr hpage1
  -- as far as `sbrk` can tell, the page of the region is one of the process
  have hspace := hlive.space.claim hsh fun u hu => hk1.shows_once (by rw [hreg]) hu hsh
  rw [hfr1] at hspace
  have hkf : k ≠ f := fun he => by
    have := hlive.stack
    rw [he, hof] at this
    cases this
  have hlive' : Lives true (KERNBASE - 1) (update own1 f (.user d' 1)) (update (sh1 0) 1 none) s1.phys.mem 0
      (s1.table.proc 0) d' k :=
    ⟨hlive.pgdir, hlive.kstack, by rw [update_of_ne hkf, hlive.stack], hlive.size, hspace⟩
  have hp' : PhysOk L (update own1 f (.user d' 1)) s1.phys :=
    hk1.phys.relabel (by simp [hof]) (by simp [hof]) nofun
  have hnew : PGSIZE = uintOf ((s1.table.proc 0).sz + (-4096)) := by rw [hsz1]; decide
  have h1 : pages PGSIZE = 1 := by decide
  obtain ⟨own2, p2, hu, hst2⟩ := sbrk_step base (-4096) hp' hact1 hlive' (by decide) (by decide) hnew (by rw [hsz1]; decide)
    fun v hv1 hv2 => by
      rw [show v = 1 by omega, update_self]
  rw [if_neg (by decide)] at hst2
  rw [hpg1, h1] at hu
  have hfree : own2 f = .free := hfr1 ▸ hu.freed 1 le_rfl (by decide) hm1
  have hs2 := hspace.shrink hu (by rw [hpg1]; decide) hpg1.le (by decide)
  refine ⟨{ s1 with phys := p2, table := s1.table.modify 0 fun q => { q with sz := PGSIZE } }, f, ?_,
    (hu.phys.free_iff f).mpr hfree, ?_, fun i e v hi he hv hm hf => ?_⟩
  · have hr0 : (memSys L base).Reachable s0 := .init ⟨b, hb⟩
    exact (hr0.step _ trivial hst1).step _ trivial hst2
  · exact hreg
  · have hi0 : i = 0 := by
      by_contra hne
      refine hne (hone i ?_)
      simpa [Table.modify, hne] using hi
    subst hi0
    obtain rfl : e = d' := Option.some.inj ((show _ = some e by simpa using he).symm.trans hd1)
    have ho := (hs2.page v hv hm).2
    rw [hf, hfree] at ho
    exact Share.owner_ne_free _ _ _ ho.symm

/-! ## Shared pages by copy -/

/-- `shmem` by a process whose size is a number of pages, when there are pages for it: the process has one page more, which it
may use. -/
theorem shmemCopy_ok (h : KernOk L strict lim own sh s) (hlim : lim ≤ KERNBASE) (hact : (s.table.proc cur).Active)
    (hd : (s.table.proc cur).pgdir = some d) (hsz : (s.table.proc cur).sz = n * PGSIZE) (hn : (n + 1) * PGSIZE < KERNBASE)
    (hlen : absent s.phys.mem d + 1 ≤ s.phys.freelist.length) :
    wp (shmemCopy L cur f) (fun r s' => r = (n * PGSIZE : Nat) ∧ UserMapped s'.phys.mem d n ∧
      s'.table = s.table.modify cur (fun q => { q with sz := (n + 1) * PGSIZE }) ∧
      s'.phys.freelist.length + 1 + absent s.phys.mem d = s.phys.freelist.length + absent s'.phys.mem d) (fun _ => False) s := by
  obtain ⟨d', k, hlive⟩ := h.lives cur hact.1
  obtain rfl : d' = d := hlive.pgdir_eq hd
  have hnew : uintOf ((s.table.proc cur).sz + (PGSIZE : Int)) = (n + 1) * PGSIZE := by
    rw [hsz]
    simp only [uintOf, PGSIZE, KERNBASE] at *
    omega
  have hpg : pages (s.table.proc cur).sz = n := by rw [hsz, pages_mul]
  unfold shmemCopy
  simp only [wp_bind, wp_get]
  refine wp_mono (growproc_grow h.phys hlive hlim (by decide)) (fun r s1 h1 => ?_) fun _ he => he
  rw [hnew, hpg, pages_mul] at h1
  obtain ⟨own1, p1, hp1, -, -, ⟨-, -, -, hshort⟩ | ⟨rfl, z, -, hz, hz', hs1, huser, -, hb, rfl⟩⟩ := h1
  · have hlt := (hshort (Nat.mul_pos (Nat.succ_pos n) (by decide)) hn).1
    omega
  obtain rfl : z = (n + 1) * PGSIZE := by
    rw [hsz] at hz'
    simp only [PGSIZE] at *
    omega
  rw [pages_mul] at hs1 huser hb
  have hlen1 : (pageBytes (p1.mem f)).length = PGSIZE := by simp [pageBytes]
  rw [if_neg (by decide)]
  simp only [wp_bind, wp_get, modify_proc_self, hd, wp_useFrame_some, wp_onPhys, hsz]
  generalize pageBytes (p1.mem f) = bs at hlen1 ⊢
  have hfit : n * PGSIZE + bs.length ≤ (n + 1) * PGSIZE := by rw [hlen1, Nat.succ_mul]
  refine wp_mono (wp_and (copyout_wp hp1 hs1 (Or.inl hfit)) (copyout_copied hs1 hfit)) (fun r p2 h2 => ?_)
    fun _ he => he
  obtain ⟨⟨-, hl2, -⟩, h2⟩ := h2
  have hnew1 := huser n le_rfl (Nat.lt_succ_self n)
  have hr : r = 0 := h2.ok fun v hv1 hv2 => by
    rw [Nat.mul_div_cancel _ (by decide)] at hv1
    obtain rfl : v = n := by
      simp only [PGSIZE] at *
      omega
    exact hnew1
  have hva : int32 ((n * PGSIZE : Nat) : Int) = (n * PGSIZE : Nat) := by
    refine int32_of_lt (by omega) ?_
    simp only [KERNBASE, PGSIZE] at *
    omega
  have hvn : n < VPAGES := by
    simp only [VPAGES, KERNBASE, PGSIZE] at *
    omega
  rw [hr, if_neg (by decide)]
  refine ⟨hva, (userMapped_congr (h2.pte n hvn)).mpr hnew1, rfl, ?_⟩
  dsimp only
  rw [h2.freelist, hs1.absent_local hl2]
  omega

/-- `shmem` with a key, under the same conditions. -/
theorem shmem_ok (key : Fin SHM_NKEYS) (h : KernOk L strict lim own sh s) (hlim : lim ≤ KERNBASE)
    (hlim' : KERNBASE - 1 ≤ lim) (hact : (s.table.proc cur).Active) (hd : (s.table.proc cur).pgdir = some d)
    (hsz : (s.table.proc cur).sz = n * PGSIZE) (hn : (n + 1) * PGSIZE < KERNBASE)
    (hlen : absent s.phys.mem d + 2 ≤ s.phys.freelist.length) :
    ∃ s', sysShmem L cur (some (key : Nat)) s = .ok (((n * PGSIZE : Nat) : Int), s') ∧ ShmemPost L strict lim s cur (n * PGSIZE : Nat) s' ∧
      UserMapped s'.phys.mem d n ∧ s'.table = s.table.modify cur (fun q => { q with sz := (n + 1) * PGSIZE }) ∧
      s.phys.freelist.length + absent s'.phys.mem d ≤ s'.phys.freelist.length + absent s.phys.mem d + 2 := by
  have hwp : wp (sysShmem L cur (some (key : Nat))) (fun r s' => r = (n * PGSIZE : Nat) ∧ UserMapped s'.phys.mem d n ∧
      s'.table = s.table.modify cur (fun q => { q with sz := (n + 1) * PGSIZE }) ∧
      s.phys.freelist.length + absent s'.phys.mem d ≤ s'.phys.freelist.length + absent s.phys.mem d + 2) (fun _ => False) s := by
    unfold sysShmem
    simp only [Option.bind_some, argIndex_ofNat, wp_bind, wp_get]
    split
    · refine wp_mono (shmemCopy_ok h hlim hact hd hsz hn (by omega)) (fun r s' h1 => ?_) fun _ he => he
      exact ⟨h1.1, h1.2.1, h1.2.2.1, by have := h1.2.2.2; omega⟩
    · simp only [wp_bind, wp_onPhys]
      refine kalloc_wp h.phys (fun hl => by simp [hl] at hlen) fun f p1 hf hm hl hp1 => ?_
      have hdf : d ≠ f := fun he => by
        obtain ⟨d', k, hlive⟩ := h.lives cur hact.1
        have hdir := hlive.space.dir
        rw [hlive.pgdir_eq hd, he, hf] at hdir
        cases hdir
      have habs : absent (p1.fill f 0).mem d = absent s.phys.mem d := absent_congr (by rw [fill_mem_of_ne hdf, hm])
      have hlen1 : s.phys.freelist.length = (p1.fill f 0).freelist.length + 1 := by rw [hl]; rfl
      simp only [wp_bind, wp_modify]
      refine wp_mono (shmemCopy_ok (h.newKey hf hm hp1) hlim hact hd hsz hn (by dsimp only; omega)) (fun r s' h1 => ?_) fun _ he => he
      exact ⟨h1.1, h1.2.1, h1.2.2.1, by have := h1.2.2.2; dsimp only at this; omega⟩
  obtain ⟨r, s', hrun, hpost, rfl, hrest⟩ := exists_of_wp (wp_and (sysShmem_wp h hlim hlim' hact.1) hwp)
  exact ⟨s', hrun, hpost, hrest⟩

/-- A store into a page that the user may use. -/
theorem userStore_ok (va : Nat) (b : UInt8) (hd : (s.table.proc cur).pgdir = some d) (hva : va / PGSIZE < VPAGES)
    (hm : UserMapped s.phys.mem d (va / PGSIZE)) :
    userStore cur va b s = .ok (0, { s with phys := s.phys.poke (frameAt s.phys.mem d (va / PGSIZE)) (va % PGSIZE) [b] }) := by
  rw [← Nat.mod_eq_of_lt hva] at hm ⊢
  have hwp : wp (userStore cur va b) (fun r s' => r = 0 ∧ s' =
      { s with phys := s.phys.poke (frameAt s.phys.mem d (va / PGSIZE % VPAGES)) (va % PGSIZE) [b] }) (fun _ => False) s :=
    userStore_cases hd (fun _ => ⟨rfl, rfl⟩) fun hno => absurd hm hno
  obtain ⟨r, s', hrun, rfl, rfl⟩ := exists_of_wp hwp
  exact hrun

/-- The byte that was stored is read back, and the page tables are as they were. -/
theorem Space.store {p : Phys} (va : Nat) (h : Space strict q own p.mem d n) (hv : va / PGSIZE < UPAGES)
    (hm : UserMapped p.mem d (va / PGSIZE)) (b : UInt8) :
    userByte (p.poke (frameAt p.mem d (va / PGSIZE)) (va % PGSIZE) [b]).mem d va = some b ∧
      absent (p.poke (frameAt p.mem d (va / PGSIZE)) (va % PGSIZE) [b]).mem d = absent p.mem d := by
  have hl := h.poke_local hv hm.1 (va % PGSIZE) [b]
  have hpte := h.pte_congr (fun g hg => hl.mem g (hg.usedBy.not_within not_false) hg.kernelOnly) (lt_VPAGES hv)
  constructor
  · unfold userByte
    rw [if_pos ((userMapped_congr hpte).mpr hm), frameAt_congr hpte, poke_mem_self, byteOf_pokePage, if_pos le_rfl,
      Nat.sub_self]
    rfl
  · unfold absent
    rw [hl.mem d (by rw [h.dir]; exact not_false) (by rw [h.dir]; trivial)]

/-! ## A machine to run on -/

/-- A kernel of 8 pages of text and 8 of data. -/
def sampleLayout : Layout where
  dataFrame := 264
  endFrame := 272
  text_lt := by decide
  data_le := by decide
  end_le := by decide

/-- Zeroed memory, nothing left of the pages of `kinit1`, and a first program of no bytes. -/
def sampleBoot : BootData sampleLayout where
  mem _ _ := 0
  rest := []
  initcode := []
  rest_nodup := List.nodup_nil
  rest_range := nofun
  init_lt := by decide

/-! ## A program of one page -/

/-- A program of one page. It gives up 5000 bytes, points the stack pointer into its page and calls `shmem(0)`. -/
def guardProgram : List UInt8 :=
  [ELF_MAGIC, 0x10101, 0, 0, 0x30002, 1, 0, ELFHDRSIZE, 0, 0, 0x200034, 1, 0].flatMap wordBytes ++
    [ELF_PROG_LOAD, ELFHDRSIZE + PROGHDRSIZE, 0, 0, 26, PGSIZE, 7, PGSIZE].flatMap wordBytes ++
    [0x68, 0x78, 0xec, 0xff, 0xff, 0x6a, 0, 0xb8, 12, 0, 0, 0, 0xcd, 0x40, -- push $-5000; push $0; mov $SYS_sbrk, %eax; int $64
      0xbc, 32, 0, 0, 0, 0xb8, 29, 0, 0, 0, 0xcd, 0x40] -- mov $32, %esp; mov $SYS_shmem, %eax; int $64

/-- What `readi` copies of its file. -/
def guardFile (off n : Nat) : List UInt8 := (guardProgram.drop off).take n

theorem guardFile_readable : Readable guardFile 84 26 := by
  intro i n
  rcases Nat.lt_or_ge 26 (i + n) with h | h
  · exact Or.inr h
  · refine Or.inl ?_
    have hlen : guardProgram.length = 110 := by decide
    rw [u32_of_lt (by omega), guardFile, List.length_take, List.length_drop, hlen]
    omega

/-- The program is loaded into its first page. -/
theorem execLoad_guard (hp : PhysOk L own p) (hs : Space true noShare own p.mem d (pages 0))
    (hlen : absent p.mem d + 3 ≤ p.freelist.length) :
    wp (execLoad L d guardFile 1 ELFHDRSIZE 0) (fun r p' => r = some PGSIZE ∧ ∃ own', PhysOk L own' p' ∧
      Space true noShare own' p'.mem d (pages PGSIZE) ∧ UserMapped p'.mem d 0 ∧
      p'.freelist.length + 1 + absent p.mem d = p.freelist.length + absent p'.mem d) E p := by
  have hph : ProgHdr.ofBytes ((guardFile ELFHDRSIZE PROGHDRSIZE).take PROGHDRSIZE) = ⟨ELF_PROG_LOAD, 84, 0, 26, PGSIZE⟩ := by decide
  unfold execLoad
  simp only [hph]
  rw [if_neg (by decide), if_neg (by decide), if_neg (by decide), if_neg (by decide), show u32 (0 + PGSIZE) = PGSIZE by decide]
  have hpg : pages PGSIZE = 1 ∧ pages 0 = 0 := by decide
  refine wp_call (allocuvm_wp hp hs (by decide)) fun r p1 h1 => ?_
  obtain ⟨own1, hp1, -, -, ⟨-, -, hshort⟩ | ⟨-, hge, hr, hs1, huser, -, hb⟩⟩ := h1
  · have hlt := (hshort (by decide)).1
    omega
  obtain rfl : r = PGSIZE := by
    simp only [PGSIZE] at *
    omega
  rw [if_neg (by decide), if_neg (by decide)]
  refine wp_call (loaduvm_wp hp1 hs1 rfl (by decide)) fun r p2 h2 => ?_
  obtain ⟨hp2, hl2, hfree, hread⟩ := h2
  rw [hread guardFile_readable, if_neg (by decide)]
  refine ⟨rfl, own1, hp2, hs1.local hl2 not_false, ?_, ?_⟩
  · exact (userMapped_congr (hs1.pte_local hl2 (by decide))).mpr (huser 0 (by decide) (by decide))
  · rw [hfree, hs1.absent_local hl2]
    omega

/-- The arguments of a program without any. -/
theorem execPush_nil (hp : PhysOk L own p) (hs : Space strict q own p.mem d n) {sz : Nat} (hsz : sz = n * PGSIZE) (hn : 0 < n)
    (huser : UserMapped p.mem d (n - 1)) :
    wp (execPush d [] sz) (fun r p' => r ≠ none ∧ p'.freelist = p.freelist ∧ absent p'.mem d = absent p.mem d ∧
      ∀ u < VPAGES, pte p'.mem d u = pte p.mem d u) E p := by
  have hU := hs.le
  have hsp : u32 (sz + 2 ^ 32 - (3 + ([] : List Nat).length + 1) * 4) = n * PGSIZE - 16 := by
    simp only [u32, UPAGES, KERNBASE, PGSIZE, List.length_nil] at *
    omega
  unfold execPush execArgs
  simp only [pure_bind, hsp]
  set bs := ([0xffffffff, ([] : List Nat).length, u32 (sz + 2 ^ 32 - (([] : List Nat).length + 1) * 4)] ++
    [] ++ [0]).flatMap wordBytes with hbs
  have hlen : bs.length = 16 := rfl
  have hfit : n * PGSIZE - 16 + bs.length ≤ n * PGSIZE := by
    rw [hlen]
    simp only [PGSIZE]
    omega
  refine wp_call (wp_and (copyout_wp hp hs (Or.inl hfit)) (copyout_copied hs hfit)) fun r p1 h1 => ?_
  obtain ⟨⟨-, hl, -⟩, hc⟩ := h1
  have hr : r = 0 := hc.ok fun v hv1 hv2 => by
    rw [hlen] at hv2
    rwa [show v = n - 1 by
      simp only [PGSIZE] at *
      omega]
  rw [hr, if_neg (by decide)]
  exact ⟨Option.some_ne_none _, hc.freelist, hs.absent_local hl, hc.pte⟩

/-- With the guard page and the stack it has three. -/
theorem execFill_guard {elf : ElfHdr} (hnum : elf.phnum = 1) (hoff : elf.phoff = ELFHDRSIZE) (hp : PhysOk L own p)
    (hs : Space true noShare own p.mem d (pages 0)) (hlen : absent p.mem d + 3 ≤ p.freelist.length) :
    wp (execFill L d guardFile [] elf) (fun r p' => (∃ sp, r = some (3 * PGSIZE, sp)) ∧ UserMapped p'.mem d 0 ∧
      ¬ UserMapped p'.mem d 1 ∧ p'.freelist.length + 3 + absent p.mem d = p.freelist.length + absent p'.mem d) E p := by
  unfold execFill
  rw [hnum, hoff]
  refine wp_call (execLoad_guard hp hs hlen) fun r p1 h1 => ?_
  obtain ⟨rfl, own1, hp1, hs1, hu1, hb1⟩ := h1
  simp only [show pgRoundUp PGSIZE = PGSIZE by decide, show u32 (PGSIZE + 2 * PGSIZE) = 3 * PGSIZE by decide]
  have hpg : pages PGSIZE = 1 ∧ pages (3 * PGSIZE) = 3 := by decide
  refine wp_call (allocuvm_wp hp1 hs1 (by decide)) fun r p2 h2 => ?_
  obtain ⟨own2, hp2, -, hkeep, ⟨-, -, hshort⟩ | ⟨-, hge, hr, hs2, huser, -, hb2⟩⟩ := h2
  · have hlt := (hshort (by decide)).1
    omega
  obtain rfl : r = 3 * PGSIZE := by
    simp only [PGSIZE] at *
    omega
  rw [if_neg (by decide), show 3 * PGSIZE - 2 * PGSIZE = 1 * PGSIZE by decide]
  refine wp_call (clearpteu_wp hp2 hs2 (by decide)) fun _ p3 h3 => ?_
  obtain ⟨hp3, hs3, -, hfree, hdir, hclear, hkeep3⟩ := h3
  refine wp_call (execPush_nil hp3 hs3 rfl (by decide)
    ((userMapped_congr (hkeep3 2 (by decide) (by decide))).mpr (huser 2 (by decide) (by decide)))) fun r p4 h4 => ?_
  obtain ⟨hr, hfree4, habs4, hpte4⟩ := h4
  obtain ⟨sp, rfl⟩ := Option.ne_none_iff_exists'.mp hr
  refine ⟨⟨sp, rfl⟩, ?_, fun hu => ?_, ?_⟩
  · rw [userMapped_congr (hpte4 0 (by decide)), userMapped_congr (hkeep3 0 (by decide) (by decide)), userMapped_congr (hkeep 0 (by decide))]
    exact hu1
  · rw [userMapped_congr (hpte4 1 (by decide)), UserMapped, hclear] at hu
    cases hu.2
  · rw [hfree4, habs4, hfree, absent_congr hdir]
    omega

/-- `exec` of the program up to its commit: it has three pages, the second of which it may not use. -/
theorem execImage_guard (hp : PhysOk L own p) (hlen : 1028 ≤ p.freelist.length) :
    wp (execImage L guardFile []) (fun r p' => ∃ im, r = some im ∧ im.sz = 3 * PGSIZE ∧ UserMapped p'.mem im.pgdir 0 ∧
      ¬ UserMapped p'.mem im.pgdir 1 ∧ p.freelist.length ≤ p'.freelist.length + 1028) E p := by
  have helf : ElfHdr.ofBytes ((guardFile 0 ELFHDRSIZE).take ELFHDRSIZE) = ⟨ELF_MAGIC, 0, ELFHDRSIZE, 1⟩ := by decide
  unfold execImage
  simp only [helf]
  rw [if_neg (by decide), if_neg (by decide)]
  refine wp_call (setupkvm_wp hp) fun r p1 h1 => ?_
  obtain ⟨own1, hp1, -, ⟨-, hshort⟩ | ⟨d, rfl, -, hs1, -, hb⟩⟩ := h1
  · omega
  refine wp_call (execFill_guard rfl rfl hp1 hs1 (by omega)) fun r p2 h2 => ?_
  obtain ⟨⟨sp, rfl⟩, h0, h1, hb2⟩ := h2
  exact ⟨_, rfl, rfl, h0, h1, by omega⟩

/-- The program in the place of one that has no region mapped, when memory is not short. -/
theorem exec_guard (base : Nat) (h : KernOk L strict lim own sh s) (hlim : lim ≤ KERNBASE) (hlim' : KERNBASE - 1 ≤ lim)
    (hact : (s.table.proc cur).Active) (hnone : ∀ r, (s.regions r).page = none) (hlen : 1028 ≤ s.phys.freelist.length) :
    ∃ s' e, memStep L base s ⟨cur, .exec ⟨[], some guardFile, []⟩⟩ = some s' ∧ KernInv L strict lim s' ∧
      (s'.table.proc cur).Active ∧ (s'.table.proc cur).sz = 3 * PGSIZE ∧ (s'.table.proc cur).pgdir = some e ∧
      (∀ r, (s'.regions r).page = none) ∧ UserMapped s'.phys.mem e 0 ∧ ¬ UserMapped s'.phys.mem e 1 ∧
      s.phys.freelist.length ≤ s'.phys.freelist.length + 1028 := by
  have hno : sh cur = noShare := h.noShare fun d _ v _ _ _ r hr => by
    rw [hnone r] at hr
    cases hr
  obtain ⟨r, s', hrun, hinv, hpost⟩ := exists_of_wp
    (exec_wp (c := ⟨[], some guardFile, []⟩) h hlim hlim' hact.1 (fun _ ha => by cases ha) fun _ _ _ _ _ => hno)
  obtain ⟨_, p, himage, im, rfl, hsz, h0, h1, hlen1⟩ := exists_of_wp (execImage_guard h.phys hlen)
  have hp := hpost guardFile im p rfl himage
  refine ⟨s', im.pgdir, memStep_of_code hact hrun, hinv, ?_, hp.size.trans hsz, hp.pgdir, fun r => by rw [hp.regions, hnone], ?_, ?_,
    hlen1.trans (Nat.add_le_add_right hp.length _)⟩
  · rw [Proc.Active, hp.state]
    exact hact
  · exact (userMapped_congr (hp.pte 0 (by decide))).mpr h0
  · rwa [userMapped_congr (hp.pte 1 (by decide))]

end OsLab
