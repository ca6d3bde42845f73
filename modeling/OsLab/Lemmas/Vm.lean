import OsLab.Lemmas.AddrSpace

/-!
# What the functions of vm.c do

One specification for each function, over an address space whose pages have owners: what it returns, what has become of the
entries, and that nothing but the address space it was given and the free list has been touched. None of them panics there.
-/

namespace OsLab

open Function (update update_self update_of_ne)
open Cmd

variable {L : Layout} {strict : Bool} {sh sh' : Share} {own own' own'' : Own} {p p' p'' : Phys} {d f : Frame} {v n : Nat}
  {E : Panic → Prop} {m : Mem} {pa perm lo hi : Nat}

/-! ## Finding and adding entries -/

theorem Walked.refl (hp : PhysOk L own p) (ht : Tables own p.mem d) : Walked L d own own p p :=
  ⟨hp, ht, Local.refl, fun _ _ => rfl, fun _ _ h => h, rfl⟩

/-- One walk after another. -/
theorem Walked.trans (h : Walked L d own own' p p') (h' : Walked L d own' own'' p' p'') : Walked L d own own'' p p'' where
  phys := h'.phys
  tables := h'.tables
  near := h.near.trans h'.near
  keep f hf := by
    have hk := h.keep f hf
    rw [h'.keep f (hk ▸ hf), hk]
  dirs k hk hp := h'.dirs k hk (h.dirs k hk hp)
  budget := by
    have h1 := h.budget
    have h2 := h'.budget
    omega

/-- What an address space leads to stays when page tables are added. -/
theorem Walked.usedBy (h : Walked L d own own' p p') {f e : Frame} (hf : (own f).UsedBy e) : own' f = own f :=
  h.keep f fun he => by simp [he, Owner.UsedBy] at hf

/-- `walkpgdir` that may not allocate. -/
theorem walkpgdir_read {Q : Option (Frame × Nat) → Phys → Prop} (hv : v < VPAGES)
    (hyes : hasP (p.mem d (v / 1024)) = true → Q (some (pteFrame (p.mem d (v / 1024)), v % 1024)) p)
    (hno : hasP (p.mem d (v / 1024)) = false → Q none p) : wp (walkpgdir d (v * PGSIZE) false) Q E p := by
  unfold walkpgdir
  simp only [wp_bind, wp_get, wp_ite, wp_pure, pdx_page hv, ptx_page]
  exact ⟨hyes, fun h => ⟨fun hf => absurd hf (by decide), fun _ => hno (by simpa using h)⟩⟩

theorem absent_congr {m' : Mem} (h : m' d = m d) : absent m' d = absent m d := by rw [absent, h, absent]

theorem lacks_congr {m' : Mem} (h : m' d = m d) : lacks m' d v = lacks m d v := by rw [lacks, h, lacks]

theorem lacks_of_absent (h : hasP (m d (v / 1024)) = false) : lacks m d v = 1 := by
  rw [lacks, h]
  rfl

/-- The table that is missing is one of the absent ones. -/
theorem lacks_le (hv : v < VPAGES) : lacks m d v ≤ absent m d := by
  unfold lacks
  split
  · exact Nat.zero_le _
  · rename_i hno
    exact Finset.card_pos.mpr ⟨v / 1024, by simpa [lt_dirs hv] using hno⟩

/-- A page table that has been added was a free page. -/
theorem Walked.lacks_le (h : Walked L d own own' p p') (hv : v < VPAGES) (hP : hasP (p'.mem d (v / 1024)) = true) :
    lacks p.mem d v ≤ p.freelist.length := by
  unfold lacks
  split
  · exact Nat.zero_le _
  rename_i hno
  have hlt : absent p'.mem d < absent p.mem d := by
    refine Finset.card_lt_card ⟨fun k hk => ?_, fun hsub => ?_⟩
    · simp only [Finset.mem_filter, Finset.mem_range, ← Bool.not_eq_true] at hk ⊢
      exact ⟨hk.1, fun hP => hk.2 (h.dirs k hk.1 hP)⟩
    · have hin := hsub (Finset.mem_filter.mpr ⟨Finset.mem_range.mpr (lt_dirs hv), Bool.not_eq_true _ ▸ hno⟩)
      simp [hP] at hin
  have hb := h.budget
  omega

/-- `walkpgdir` that may allocate fails only when there is no free page for a page table; otherwise there is a page table for the
address, and all entries are as they were. -/
theorem walkpgdir_add {Q : Option (Frame × Nat) → Phys → Prop} (hp : PhysOk L own p) (ht : Tables own p.mem d)
    (hv : v < VPAGES) (hnone : p.freelist = [] → hasP (p.mem d (v / 1024)) = false → Q none p)
    (hsome : ∀ p' own', Walked L d own own' p p' → hasP (p'.mem d (v / 1024)) = true →
      (∀ u < VPAGES, pte p'.mem d u = pte p.mem d u) → Q (some (pteFrame (p'.mem d (v / 1024)), v % 1024)) p') :
    wp (walkpgdir d (v * PGSIZE) true) Q E p := by
  have hk := lt_dirs hv
  unfold walkpgdir
  simp only [wp_bind, wp_get, wp_ite, wp_pure, pdx_page hv, ptx_page]
  refine ⟨fun hyes => hsome p own (Walked.refl hp ht) hyes fun _ _ => rfl, fun hno => ⟨fun _ => ?_, fun h => absurd trivial h⟩⟩
  have hno : hasP (p.mem d (v / 1024)) = false := by simpa using hno
  refine kalloc_wp hp (fun hl => hnone hl hno) fun t p1 hfree hm hl hp1 => ?_
  · -- the new page is zeroed and put under the entry
    simp only [wp_bind, wp_modify, wp_pure]
    have htd : d ≠ t := by
      rintro rfl
      rw [ht.dir] at hfree
      cases hfree
    have ht1 : Tables (update own t .loose) p1.mem d := by
      refine ht.congr (fun g hg => ?_) fun g _ => by rw [hm]
      have hne : g ≠ t := fun he => by simp [he, hfree, Owner.TreeOf] at hg
      simp [hne]
    obtain ⟨h1, h2, h3, h4, h5⟩ := ht1.add (t := t)
      ((p1.fill t 0).setWord d (v / 1024) (t * PGSIZE ||| PTE_P ||| PTE_W ||| PTE_U)).mem hk
      (by rw [hm]; exact hno) (by simp) (by rw [setWord_mem_self, fill_mem_of_ne htd])
      (by rw [setWord_mem_of_ne htd.symm, fill_mem_self])
      (fun g hgd hgt => by rw [setWord_mem_of_ne hgd, fill_mem_of_ne hgt])
    rw [hm] at h2 h4 h5
    have hfr : pteFrame (((p1.fill t 0).setWord d (v / 1024)
        (t * PGSIZE ||| PTE_P ||| PTE_W ||| PTE_U)).mem d (v / 1024)) = t := by
      rw [setWord_mem_self, update_self, pdeWord_eq, pteFrame_entry t (by decide)]
    have hown : update (update own t .loose) t (.table d (v / 1024)) =
        update own t (.table d (v / 1024)) := Function.update_idem _ _ _
    rw [hown] at h1
    have hW := hsome _ (update own t (.table d (v / 1024))) ⟨?_, h1, ?_, fun g hg => ?_, fun k _ => h4 k, ?_⟩ h3 h2
    · rwa [hfr] at hW
    · have hr := hp1.relabel (f := t) (o := .table d (v / 1024)) (by simp) (by simp) (by simp)
      rw [hown] at hr
      exact (hr.setPage _ _).setPage _ _
    · refine (Local.of_own (by simp [hfree, Owner.Within]) (by simp [Owner.Within])).trans
        (Local.of_mem fun g hg => Or.inl ?_)
      by_cases hgt : g = t
      · simp [hgt, Owner.Within]
      · by_cases hgd : g = d
        · simp [hgd, htd, ht.dir, Owner.Within]
        · rw [setWord_mem_of_ne hgd, fill_mem_of_ne hgt, hm] at hg
          exact absurd rfl hg
    · have hne : g ≠ t := fun he => hg (he ▸ hfree)
      simp [hne]
    · have hlen : p.freelist.length = p1.freelist.length + 1 := by rw [hl]; rfl
      simp only [setWord_freelist, fill_freelist]
      omega

/-- An entry of `d` has been written. -/
theorem Walked.set (hp : PhysOk L own p) (ht : Tables own p.mem d) (hv : v < VPAGES) (w : Nat)
    (hP : hasP (p.mem d (v / 1024)) = true) :
    Walked L d own own p (p.setWord (pteFrame (p.mem d (v / 1024))) (v % 1024) w) ∧
      (p.setWord (pteFrame (p.mem d (v / 1024))) (v % 1024) w).mem d = p.mem d ∧
      ∀ u < VPAGES, pte (p.setWord (pteFrame (p.mem d (v / 1024))) (v % 1024) w).mem d u =
        if u = v then w else pte p.mem d u := by
  obtain ⟨h1, h2, h3⟩ := ht.set (w := w) (p.setWord (pteFrame (p.mem d (v / 1024))) (v % 1024) w).mem hv hP
    setWord_mem_self fun g _ hg => setWord_mem_of_ne hg
  refine ⟨⟨hp.setPage _ _, h1, Local.of_mem fun g hg => Or.inl ?_, fun _ _ => rfl, fun k _ hk => by rwa [h2], ?_⟩, h2, h3⟩
  · have hgt : g = pteFrame (p.mem d (v / 1024)) := by
      by_contra hne
      exact hg (setWord_mem_of_ne hne)
    rw [hgt, ht.table _ (lt_dirs hv) hP]
    rfl
  · unfold absent
    rw [h2, setWord_freelist]

/-- What `mappages` does from the page number `v` on for `n` pages: on failure memory is short, and the entries it has written
are those of the first pages. -/
def MapPost (L : Layout) (d : Frame) (own : Own) (p : Phys) (n v pa perm : Nat) (r : Int) (p' : Phys) : Prop :=
  ∃ own', Walked L d own own' p p' ∧
    (r = -1 ∧ p'.freelist = [] ∧ 0 < absent p'.mem d ∧
        (∃ j < n, ∀ u < VPAGES, u < v ∨ v + j ≤ u → pte p'.mem d u = pte p.mem d u) ∨
      r = 0 ∧ (∀ u < VPAGES, u < v ∨ v + n ≤ u → pte p'.mem d u = pte p.mem d u) ∧
        ∀ j < n, hasP (p'.mem d ((v + j) / 1024)) = true ∧ pte p'.mem d (v + j) = (pa + j * PGSIZE) ||| perm ||| PTE_P)

/-- One more page before those of a `mappages`. -/
theorem MapPost.cons {r : Int} (hw : Walked L d own own' p p') (hP : hasP (p'.mem d (v / 1024)) = true) (hv : v + n + 1 ≤ VPAGES)
    (hpte : ∀ u < VPAGES, pte p'.mem d u = if u = v then pa ||| perm ||| PTE_P else pte p.mem d u)
    (h : MapPost L d own' p' n (v + 1) (pa + PGSIZE) perm r p'') : MapPost L d own p (n + 1) v pa perm r p'' := by
  obtain ⟨own'', hw', h⟩ := h
  refine ⟨own'', hw.trans hw', ?_⟩
  have hold : ∀ u < VPAGES, u ≠ v → pte p'.mem d u = pte p.mem d u := fun u hu hne => by rw [hpte u hu, if_neg hne]
  rcases h with ⟨hr, hl, ha, j, hj, hs⟩ | ⟨hr, hs, hn⟩
  · refine Or.inl ⟨hr, hl, ha, j + 1, by omega, fun u hu hout => ?_⟩
    rw [hs u hu (by omega), hold u hu (by omega)]
  · refine Or.inr ⟨hr, fun u hu hout => ?_, fun j hj => ?_⟩
    · rw [hs u hu (by omega), hold u hu (by omega)]
    · cases j with
      | zero =>
        have hvv : v < VPAGES := by omega
        refine ⟨hw'.dirs _ (lt_dirs hvv) hP, ?_⟩
        rw [Nat.add_zero, Nat.zero_mul, Nat.add_zero, hs v hvv (by omega), hpte v hvv, if_pos rfl]
      | succ j =>
        have h1 := hn j (by omega)
        rw [show v + (j + 1) = v + 1 + j by omega, show pa + (j + 1) * PGSIZE = pa + PGSIZE + j * PGSIZE by
          rw [Nat.add_mul]; omega]
        exact h1

/-- One turn of the loop of `mappages`. -/
theorem mapLoop_turn {Q : Int → Phys → Prop} (hp : PhysOk L own p) (ht : Tables own p.mem d) (hv : v < VPAGES) (hno : ¬ Mapped p.mem d v)
    (hfail : p.freelist = [] → hasP (p.mem d (v / 1024)) = false → Q (-1) p)
    (hok : ∀ p' own', Walked L d own own' p p' → hasP (p'.mem d (v / 1024)) = true →
      (∀ u < VPAGES, pte p'.mem d u = if u = v then pa ||| perm ||| PTE_P else pte p.mem d u) →
        wp (mapLoop d perm n (u32 (v * PGSIZE + PGSIZE)) (u32 (pa + PGSIZE))) Q E p') :
    wp (mapLoop d perm (n + 1) (v * PGSIZE) pa) Q E p := by
  unfold mapLoop
  simp only [wp_bind]
  refine walkpgdir_add hp ht hv hfail fun p1 own1 hw hP hpte => ?_
  have heq : p1.mem (pteFrame (p1.mem d (v / 1024))) (v % 1024) = pte p.mem d v := by rw [← hpte v hv, pte, if_pos hP]
  obtain ⟨hw2, -, hpte2⟩ := Walked.set hw.phys hw.tables hv (pa ||| perm ||| PTE_P) hP
  simp only [wp_bind, wp_get, wp_ite, wp_throw, wp_set, heq]
  exact ⟨fun hm => absurd hm hno, fun _ => hok _ own1 (hw.trans hw2) (hw2.dirs _ (lt_dirs hv) hP) fun u hu => by
    rw [hpte2 u hu, hpte u hu]⟩

/-- The loop of `mappages` maps what it can, and fails without a page table. -/
theorem mapLoop_wp (perm : Nat) (hp : PhysOk L own p) (ht : Tables own p.mem d) (hv : v + n ≤ VPAGES) (hpa : pa + n * PGSIZE ≤ 2 ^ 32)
    (hno : ∀ u, v ≤ u → u < v + n → ¬ Mapped p.mem d u) : wp (mapLoop d perm n (v * PGSIZE) pa) (MapPost L d own p n v pa perm) E p := by
  induction n generalizing v pa own p with
  | zero => exact ⟨own, Walked.refl hp ht, Or.inr ⟨rfl, fun _ _ _ => rfl, fun j hj => absurd hj j.not_lt_zero⟩⟩
  | succ n ih =>
    have hvv : v < VPAGES := by omega
    refine mapLoop_turn hp ht hvv (hno v le_rfl (by omega)) (fun hl ha => ?_) fun p1 own1 hw hP hpte => ?_
    · exact ⟨own, Walked.refl hp ht, Or.inl ⟨rfl, hl, (lacks_of_absent ha).ge.trans (lacks_le hvv), 0, by omega, fun _ _ _ => rfl⟩⟩
    -- the rest of the loop, unless this was the last page and the addresses may have wrapped
    have hrest : wp (mapLoop d perm n (u32 (v * PGSIZE + PGSIZE)) (u32 (pa + PGSIZE)))
        (MapPost L d own1 p1 n (v + 1) (pa + PGSIZE) perm) E p1 := by
      rcases Nat.eq_zero_or_pos n with rfl | hn
      · exact ⟨own1, Walked.refl hw.phys hw.tables, Or.inr ⟨rfl, fun _ _ _ => rfl, fun j hj => absurd hj j.not_lt_zero⟩⟩
      · have h1 : u32 (v * PGSIZE + PGSIZE) = (v + 1) * PGSIZE := by
          simp only [u32, PGSIZE, VPAGES] at *
          omega
        have h2 : u32 (pa + PGSIZE) = pa + PGSIZE := u32_of_lt (by simp only [PGSIZE] at *; omega)
        rw [h1, h2]
        refine ih hw.phys hw.tables (by omega) (by simp only [PGSIZE] at *; omega) fun u hu1 hu2 => ?_
        rw [mapped_congr (m := p.mem) (by rw [hpte u (by omega), if_neg (by omega)])]
        exact hno u (by omega) (by omega)
    exact wp_mono hrest (fun r p3 h3 => h3.cons hw hP (by omega) hpte) fun _ he => he

/-- The turns of `mappages` over whole pages. -/
theorem mappages_eq (d : Frame) (pa perm : Nat) (hn : 0 < n) (hv : v + n ≤ VPAGES) :
    mappages d (v * PGSIZE) (n * PGSIZE) pa perm = mapLoop d perm n (v * PGSIZE) pa := by
  have h1 : pgRoundDown (v * PGSIZE) = v * PGSIZE := by
    simp only [pgRoundDown, PGSIZE]
    omega
  have h2 : u32 (pgRoundDown (u32 (v * PGSIZE + n * PGSIZE - 1)) + 2 ^ 32 - v * PGSIZE) / PGSIZE + 1 = n := by
    simp only [pgRoundDown, u32, PGSIZE, VPAGES] at *
    omega
  unfold mappages
  simp only [h1, h2]

/-- `mappages` of one page. -/
theorem mappages_page {Q : Int → Phys → Prop} (hp : PhysOk L own p) (ht : Tables own p.mem d) (hv : v < VPAGES) (hno : ¬ Mapped p.mem d v)
    (hfail : p.freelist = [] → hasP (p.mem d (v / 1024)) = false → Q (-1) p)
    (hok : ∀ p' own', Walked L d own own' p p' → hasP (p'.mem d (v / 1024)) = true →
      (∀ u < VPAGES, pte p'.mem d u = if u = v then f * PGSIZE ||| perm ||| PTE_P else pte p.mem d u) → Q 0 p') :
    wp (mappages d (v * PGSIZE) PGSIZE (f * PGSIZE) perm) Q E p := by
  have heq := mappages_eq d (f * PGSIZE) perm Nat.one_pos hv
  rw [Nat.one_mul] at heq
  rw [heq]
  exact mapLoop_turn hp ht hv hno hfail hok

/-! ## Freeing -/

theorem Unmapped.refl (hp : PhysOk L own p) (ht : Tables own p.mem d) (hno : ∀ u, lo ≤ u → u < hi → ¬ Mapped p.mem d u) :
    Unmapped L d lo hi own own p p :=
  ⟨hp, ht, Local.refl, rfl, fun _ => Or.inl rfl, fun _ _ _ => rfl, hno, fun u h1 h2 hm => absurd hm (hno u h1 h2)⟩

/-- A page that is free stays so. -/
theorem Unmapped.free (h : Unmapped L d lo hi own own' p p') (hf : own f = .free) : own' f = .free := by
  rcases h.hands f with h1 | ⟨h1, -⟩
  · rw [h1, hf]
  · exact h1

/-- No free page has been taken. -/
theorem Unmapped.length_le (h : Unmapped L d lo hi own own' p p') (hp : PhysOk L own p) : p.freelist.length ≤ p'.freelist.length := by
  have hsub : p.freelist ⊆ p'.freelist := fun f hf => (h.phys.free_iff f).mpr (h.free ((hp.free_iff f).mp hf))
  exact (hp.nodup.subperm hsub).length_le

/-- Two ranges, one after the other. -/
theorem Unmapped.trans {mid : Nat} (h : Unmapped L d lo mid own own' p p') (h' : Unmapped L d mid hi own' own'' p' p'') (hlo : lo ≤ mid)
    (hhi : mid ≤ hi) (hU : hi ≤ UPAGES) : Unmapped L d lo hi own own'' p p'' where
  phys := h'.phys
  tables := h'.tables
  near := h.near.trans h'.near
  dirs := h'.dirs.trans h.dirs
  hands f := by
    rcases h.hands f with h1 | ⟨h1, u, hu1, hu2, hu3⟩
    · rcases h'.hands f with h2 | ⟨h2, u, hu1, hu2, hu3⟩
      · exact Or.inl (h2.trans h1)
      · exact Or.inr ⟨h2, u, hlo.trans hu1, hu2, h1 ▸ hu3⟩
    · rcases h'.hands f with h2 | ⟨-, w, -, -, hw⟩
      · exact Or.inr ⟨h2.trans h1, u, hu1, hu2.trans_le hhi, hu3⟩
      · rw [h1] at hw
        cases hw
  others u hu hout := by rw [h'.others u hu (by omega), h.others u hu (by omega)]
  gone u hu1 hu2 := by
    by_cases hm : u < mid
    · rw [mapped_congr (h'.others u (lt_VPAGES (hu2.trans_le hU)) (Or.inl hm))]
      exact h.gone u hu1 hm
    · exact h'.gone u (Nat.le_of_not_lt hm) hu2
  freed u hu1 hu2 hm := by
    by_cases hlt : u < mid
    · exact h'.free (h.freed u hu1 hlt hm)
    · have he := h.others u (lt_VPAGES (hu2.trans_le hU)) (Or.inr (Nat.le_of_not_lt hlt))
      rw [← frameAt_congr he]
      exact h'.freed u (Nat.le_of_not_lt hlt) hu2 ((mapped_congr he).mpr hm)

/-- Pages that were not mapped may be counted among those unmapped. -/
theorem Unmapped.widen {lo' : Nat} (h : Unmapped L d lo' hi own own' p p') (hle : lo ≤ lo') (hU : hi ≤ UPAGES)
    (hno : ∀ u < VPAGES, lo ≤ u → u < lo' → ¬ Mapped p.mem d u) : Unmapped L d lo hi own own' p p' where
  phys := h.phys
  tables := h.tables
  near := h.near
  dirs := h.dirs
  hands f := (h.hands f).imp_right fun ⟨h1, u, hu1, hu2⟩ => ⟨h1, u, hle.trans hu1, hu2⟩
  others u hu hout := h.others u hu (by omega)
  gone u hu1 hu2 := by
    by_cases hm : u < lo'
    · have hu := lt_VPAGES (hu2.trans_le hU)
      rw [mapped_congr (h.others u hu (Or.inl hm))]
      exact hno u hu hu1 hm
    · exact h.gone u (Nat.le_of_not_lt hm) hu2
  freed u hu1 hu2 hm := by
    by_cases hlt : u < lo'
    · exact absurd hm (hno u (lt_VPAGES (hu2.trans_le hU)) hu1 hlt)
    · exact h.freed u (Nat.le_of_not_lt hlt) hu2 hm

/-- The page at `v` has been freed and its entry cleared. -/
theorem Unmapped.one (hp : PhysOk L (update own f .free) p') (ht : Tables own p.mem d) (hv : v < VPAGES)
    (hP : hasP (p.mem d (v / 1024)) = true) (hf : frameAt p.mem d v = f) (ho : own f = .user d v)
    (hmem : ∀ g, g ≠ f → p'.mem g = p.mem g) :
    Unmapped L d v (v + 1) own (update own f .free) p
      (p'.setWord (pteFrame (p.mem d (v / 1024))) (v % 1024) 0) := by
  have hne : ∀ g, (own g).TreeOf d → g ≠ f := by
    rintro g hg rfl
    simp [ho, Owner.TreeOf] at hg
  have ht' : Tables (update own f .free) p'.mem d :=
    ht.congr (fun g hg => update_of_ne (hne g hg) _ _) fun g hg => hmem g (hne g hg)
  have hd : p'.mem d = p.mem d := hmem d (hne d ht.treeOf_dir)
  have hpte : ∀ u < VPAGES, pte p'.mem d u = pte p.mem d u :=
    fun u hu => ht.pte_congr (fun g hg => hmem g (hne g hg)) hu
  obtain ⟨hw, hd2, hpte2⟩ := Walked.set hp ht' hv 0 (by rw [hd]; exact hP)
  rw [hd] at hw hd2 hpte2
  refine ⟨hw.phys, hw.tables, ?_, hd2, fun g => ?_, fun u hu hout => ?_, fun u hu1 hu2 => ?_, fun u hu1 hu2 _ => ?_⟩
  · exact (Local.freed (by rw [ho]; rfl) hmem).trans hw.near
  · by_cases hgf : g = f
    · subst hgf
      exact Or.inr ⟨by simp, v, le_rfl, v.lt_succ_self, ho⟩
    · exact Or.inl (update_of_ne hgf _ _)
  · rw [hpte2 u hu, if_neg (by omega), hpte u hu]
  · have huv : u = v := by omega
    subst huv
    unfold Mapped
    rw [hpte2 u hv, if_pos rfl]
    simp
  · rw [show u = v by omega, hf, update_self]

/-- The loop of `deallocuvm` frees the pages that are mapped. -/
theorem deallocLoop_wp {oldsz turns : Nat} (hp : PhysOk L own p) (ht : Tables own p.mem d) (hU : pages oldsz ≤ UPAGES)
    (hturns : pages oldsz ≤ v + turns) (hpriv : Private own p.mem d v (pages oldsz)) :
    wp (deallocLoop L d oldsz turns (v * PGSIZE))
      (fun _ p' => ∃ own', Unmapped L d v (pages oldsz) own own' p p') E p := by
  induction turns generalizing v own p with
  | zero => exact ⟨own, Unmapped.refl hp ht fun u hu1 hu2 => by omega⟩
  | succ turns ih =>
    unfold deallocLoop
    simp only [wp_ite, wp_bind, wp_pure, ← lt_pages_iff]
    refine ⟨fun hv => ?_, fun hv => ⟨own, Unmapped.refl hp ht fun u hu1 hu2 => by omega⟩⟩
    have hvv : v < VPAGES := lt_VPAGES (hv.trans_le hU)
    have hnext := u32_next (hv.trans_le hU)
    refine walkpgdir_read hvv (fun hP => ?_) fun hP => ?_
    · have heq : p.mem (pteFrame (p.mem d (v / 1024))) (v % 1024) = pte p.mem d v := by rw [pte, if_pos hP]
      simp only [wp_bind, wp_get, wp_ite, wp_throw, heq, hnext]
      refine ⟨fun hm => ?_, fun hm => ?_⟩
      · -- a page of this address space, which the allocator can take
        have ho := hpriv v le_rfl hv hm
        have hr := (hp.range _ (by rw [ho]; intro he; cases he)).1
        have h0 : 0 < L.endFrame := (Nat.zero_le _).trans_lt (L.text_lt.trans_le L.data_le)
        refine ⟨fun hz => absurd (hz ▸ hr : L.endFrame ≤ 0) (by omega), fun _ => ?_⟩
        refine kfree_wp hp (by rw [← frameAt, ho]; intro he; cases he) (by rw [← frameAt, ho]; intro he; cases he)
          fun p1 hp1 hmem _ => ?_
        have h1 := Unmapped.one hp1 ht hvv hP rfl ho hmem
        refine wp_mono (ih h1.phys h1.tables (by omega) fun u hu1 hu2 hmu => ?_) (fun _ p2 h2 => ?_) fun _ he => he
        · have he := h1.others u (lt_VPAGES (hu2.trans_le hU)) (Or.inr hu1)
          rw [mapped_congr he] at hmu
          have hou := hpriv u (by omega) hu2 hmu
          rw [frameAt_congr he, update_of_ne, hou]
          intro hf
          rw [hf, ← frameAt, ho] at hou
          have := (Owner.user.inj hou).2
          omega
        · obtain ⟨own2, h2⟩ := h2
          exact ⟨own2, h1.trans h2 v.le_succ hv hU⟩
      · refine wp_mono (ih hp ht (by omega) fun u hu1 hu2 => hpriv u (by omega) hu2) (fun _ p2 h2 => ?_) fun _ he => he
        obtain ⟨own2, h2⟩ := h2
        refine ⟨own2, h2.widen v.le_succ hU fun u _ hu1 hu2 => ?_⟩
        rwa [show u = v by omega]
    · -- no page table: the pages up to the next directory entry are not mapped
      have hskip : u32 ((pdx (v * PGSIZE) + 1) * 2 ^ 22) = (v / 1024 + 1) * 1024 * PGSIZE := by
        rw [pdx_page hvv]
        simp only [u32, PGSIZE, UPAGES, KERNBASE] at *
        omega
      simp only [hskip]
      refine wp_mono (ih hp ht (by omega) fun u hu1 hu2 => hpriv u (by omega) hu2) (fun _ p2 h2 => ?_) fun _ he => he
      obtain ⟨own2, h2⟩ := h2
      refine ⟨own2, h2.widen (by omega) hU fun u _ hu1 hu2 => ?_⟩
      unfold Mapped pte
      rw [show u / 1024 = v / 1024 by omega, hP]
      simp

/-- `deallocuvm` to a smaller size. -/
theorem deallocuvm_wp {oldsz newsz : Nat} (hp : PhysOk L own p) (ht : Tables own p.mem d) (hold : oldsz ≤ KERNBASE)
    (hlt : newsz < oldsz) (hpriv : Private own p.mem d (pages newsz) (pages oldsz)) :
    wp (deallocuvm L d oldsz newsz)
      (fun r p' => r = newsz ∧ ∃ own', Unmapped L d (pages newsz) (pages oldsz) own own' p p') E p := by
  unfold deallocuvm
  simp only [wp_ite, wp_bind, wp_pure]
  refine ⟨fun h => by omega, fun _ => ?_⟩
  rw [pgRoundUp_eq (by omega)]
  exact wp_mono (deallocLoop_wp hp ht (pages_le hold) (Nat.le_add_left _ _) hpriv) (fun _ _ h => ⟨rfl, h⟩) fun _ he => he

/-- The tables of a directory go back to the free pages. -/
theorem freeTables_wp {ks : List Nat} (hp : PhysOk L own p) (hd : own d = .dir d) (hnd : ks.Nodup)
    (htab : ∀ k ∈ ks, hasP (p.mem d k) = true → own (pteFrame (p.mem d k)) = .table d k) :
    wp (freeTables L d ks)
      (fun _ p' => ∃ own', PhysOk L own' p' ∧ own' d = .dir d ∧ Local (· = d) own own' p.mem p'.mem ∧
        p.freelist.length ≤ p'.freelist.length) E p := by
  induction ks generalizing own p with
  | nil => exact ⟨own, hp, hd, Local.refl, le_rfl⟩
  | cons k ks ih =>
    obtain ⟨hk, hnd⟩ := List.nodup_cons.mp hnd
    unfold freeTables
    simp only [wp_bind, wp_get, wp_ite]
    refine ⟨fun hP => ?_, fun _ => ih hp hd hnd fun j hj => htab j (List.mem_cons_of_mem k hj)⟩
    have ho := htab k List.mem_cons_self hP
    refine kfree_wp hp (by rw [ho]; intro he; cases he) (by rw [ho]; intro he; cases he) fun p1 hp1 hmem hl => ?_
    have hne : d ≠ pteFrame (p.mem d k) := fun he => by
      rw [← he, hd] at ho
      cases ho
    have hnear : Local (· = d) own (update own (pteFrame (p.mem d k)) .free) p.mem p1.mem :=
      Local.freed (by rw [ho]; rfl) hmem
    refine wp_mono (ih hp1 (by rw [update_of_ne hne, hd]) hnd fun j hj hPj => ?_) (fun _ p2 h2 => ?_)
      fun _ he => he
    · rw [hmem d hne] at hPj ⊢
      have hoj := htab j (List.mem_cons_of_mem k hj) hPj
      rw [update_of_ne, hoj]
      intro he
      rw [he, ho] at hoj
      exact hk ((Owner.table.inj hoj).2 ▸ hj)
    · obtain ⟨own2, h1, h2, h3, h4⟩ := h2
      rw [hl] at h4
      exact ⟨own2, h1, h2, hnear.trans h3, (Nat.le_succ _).trans h4⟩

/-- `freevm` of an address space without shared pages. -/
theorem freevm_wp (hp : PhysOk L own p) (ht : Tables own p.mem d) (hpriv : Private own p.mem d 0 UPAGES) :
    wp (freevm L d) (fun _ p' => ∃ own', PhysOk L own' p' ∧ Local (· = d) own own' p.mem p'.mem ∧
      p.freelist.length ≤ p'.freelist.length) E p := by
  have hK : pages KERNBASE = UPAGES := by decide
  have hnd : (List.range 1024).Nodup := List.nodup_range
  have hlt : ∀ k ∈ List.range 1024, k < 1024 := fun k hk => List.mem_range.mp hk
  unfold freevm
  generalize List.range 1024 = ks at hnd hlt ⊢
  refine wp_call (deallocuvm_wp hp ht le_rfl (by decide) (by rw [hK]; exact hpriv)) fun _ p1 h1 => ?_
  obtain ⟨own1, h1⟩ := h1.2
  refine wp_call (freeTables_wp h1.phys h1.tables.dir hnd fun k hk => h1.tables.table k (hlt k hk)) fun _ p2 h2 => ?_
  obtain ⟨own2, hp2, hd2, hl2, hle⟩ := h2
  refine kfree_wp hp2 (by rw [hd2]; exact nofun) (by rw [hd2]; exact nofun) fun p3 hp3 hmem hl => ?_
  refine ⟨_, hp3, (h1.near.trans hl2).trans (Local.freed (by rw [hd2]; rfl) hmem), ?_⟩
  rw [hl]
  exact ((h1.length_le hp).trans hle).trans (Nat.le_succ _)

end OsLab
