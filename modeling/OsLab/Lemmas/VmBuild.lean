import OsLab.Lemmas.Vm

/-!
# Building an address space

`setupkvm` makes an address space without user pages, and `inituvm`, `allocuvm`, `copyuvm` and their kin add pages to one. A
function that fails leaves what was there before, with the pages it took free again.
-/

namespace OsLab

open Function (update update_self update_of_ne)
open Cmd

variable {L : Layout} {strict : Bool} {sh sh' : Share} {own own' own'' : Own} {p p' p'' : Phys} {d f : Frame} {v n : Nat}
  {E : Panic → Prop} {m : Mem} {n0 newsz oldsz : Nat}

/-! ## The kernel part -/

/-- A mapping of the kernel, in pages. -/
structure KRange where
  page : Nat
  count : Nat
  frame : Nat
  perm : Nat

/-- The mapping as it stands in `kmap`. -/
def KRange.entry (r : KRange) : Nat × Nat × Nat × Nat :=
  (r.page * PGSIZE, r.frame * PGSIZE, u32 ((r.frame + r.count) * PGSIZE), r.perm)

/-- The mapping is in the kernel part, and is not empty. -/
structure KRange.Ok (r : KRange) : Prop where
  kern : UPAGES ≤ r.page
  pos : 0 < r.count
  lt : r.count < VPAGES
  page_le : r.page + r.count ≤ VPAGES
  frame_le : r.frame + r.count ≤ VPAGES
  perm : hasU r.perm = false

/-- The size that `setupkvm` computes from the ends of the range, which may wrap. -/
theorem KRange.Ok.size {r : KRange} (h : r.Ok) :
    u32 (u32 ((r.frame + r.count) * PGSIZE) + 2 ^ 32 - r.frame * PGSIZE) = r.count * PGSIZE := by
  have h1 := h.frame_le
  have h2 := h.lt
  have h3 := h.pos
  simp only [u32, VPAGES, PGSIZE] at *
  omega

/-- The mapping has the page number `u`. -/
def KRange.Has (r : KRange) (u : Nat) : Prop := r.page ≤ u ∧ u < r.page + r.count

/-- The mappings of `kmap`. -/
def kernRanges (L : Layout) : List KRange :=
  [⟨UPAGES, EXTMEM / PGSIZE, 0, PTE_W⟩,
   ⟨UPAGES + EXTMEM / PGSIZE, L.dataFrame - EXTMEM / PGSIZE, EXTMEM / PGSIZE, 0⟩,
   ⟨UPAGES + L.dataFrame, NFRAMES - L.dataFrame, L.dataFrame, PTE_W⟩,
   ⟨DEVPAGE, VPAGES - DEVPAGE, DEVPAGE, PTE_W⟩]

theorem kmap_eq (L : Layout) : kmap L = (kernRanges L).map KRange.entry := by
  have h1 := L.text_lt
  have h2 : L.dataFrame ≤ 1024 := L.data_le.trans L.end_le
  simp only [EXTMEM, PGSIZE] at h1
  simp only [kmap, kernRanges, List.map_cons, List.map_nil, KRange.entry, List.cons.injEq, Prod.mk.injEq]
  simp only [UPAGES, VPAGES, DEVPAGE, NFRAMES, KERNBASE, EXTMEM, PHYSTOP, DEVSPACE, PGSIZE, u32, and_true, true_and]
  omega

theorem kernRanges_ok (L : Layout) : ∀ r ∈ kernRanges L, r.Ok := by
  have h1 := L.text_lt
  have h2 : L.dataFrame ≤ 1024 := L.data_le.trans L.end_le
  simp only [EXTMEM, PGSIZE] at h1
  simp only [kernRanges, List.mem_cons, List.not_mem_nil, or_false]
  rintro r (rfl | rfl | rfl | rfl) <;> refine ⟨?_, ?_, ?_, ?_, ?_, by simp [hasU, PTE_W]⟩ <;>
    simp only [UPAGES, VPAGES, DEVPAGE, NFRAMES, KERNBASE, EXTMEM, PHYSTOP, DEVSPACE, PGSIZE] <;> omega

theorem kernRanges_pairwise (L : Layout) : (kernRanges L).Pairwise fun a b => a.page + a.count ≤ b.page := by
  have h1 := L.text_lt
  have h2 : L.dataFrame ≤ 1024 := L.data_le.trans L.end_le
  simp only [EXTMEM, PGSIZE] at h1
  simp only [kernRanges, List.pairwise_cons, List.mem_cons, List.not_mem_nil, or_false, forall_eq_or_imp, forall_eq,
    UPAGES, VPAGES, DEVPAGE, NFRAMES, KERNBASE, EXTMEM, PHYSTOP, DEVSPACE, PGSIZE]
  simp
  omega

/-- What the loop of `setupkvm` comes to: every mapping is there and the other entries are as before, or memory was short and
the address space has been freed. -/
def SetupPost (L : Layout) (d : Frame) (own : Own) (p : Phys) (rs : List KRange) (r : Option Frame) (p' : Phys) : Prop :=
  r = none ∧ p.freelist.length < absent p.mem d ∧ (∃ own', PhysOk L own' p' ∧ Local (· = d) own own' p.mem p'.mem) ∨
  r = some d ∧ ∃ own', Walked L d own own' p p' ∧
    (∀ u < VPAGES, (∀ k ∈ rs, ¬ k.Has u) → pte p'.mem d u = pte p.mem d u) ∧
    ∀ k ∈ rs, ∀ j < k.count, hasP (p'.mem d ((k.page + j) / 1024)) = true ∧
      pte p'.mem d (k.page + j) = (k.frame * PGSIZE + j * PGSIZE) ||| k.perm ||| PTE_P

/-- The ranges of the kernel are mapped one by one. -/
theorem setupLoop_wp {rs : List KRange} (hp : PhysOk L own p) (ht : Tables own p.mem d)
    (hno : ∀ u < UPAGES, ¬ Mapped p.mem d u) (hok : ∀ k ∈ rs, k.Ok) (hdis : rs.Pairwise fun a b => a.page + a.count ≤ b.page)
    (hnew : ∀ k ∈ rs, ∀ u, k.Has u → ¬ Mapped p.mem d u) :
    wp (setupLoop L d (rs.map KRange.entry)) (SetupPost L d own p rs) E p := by
  induction rs generalizing own p with
  | nil => exact Or.inr ⟨rfl, own, Walked.refl hp ht, fun _ _ _ => rfl, nofun⟩
  | cons k rs ih =>
    obtain ⟨hdk, hdis⟩ := List.pairwise_cons.mp hdis
    have hk := hok k List.mem_cons_self
    rw [List.map_cons, KRange.entry, setupLoop, hk.size, mappages_eq d _ _ hk.pos hk.page_le]
    have hpa : k.frame * PGSIZE + k.count * PGSIZE ≤ 2 ^ 32 := by
      have h1 := hk.frame_le
      simp only [VPAGES, PGSIZE] at *
      omega
    refine wp_call (mapLoop_wp k.perm hp ht hk.page_le hpa fun u hu1 hu2 => hnew k List.mem_cons_self u ⟨hu1, hu2⟩)
      fun r p1 h1 => ?_
    obtain ⟨own1, hw, ⟨rfl, hl, ha, j, hj, hs⟩ | ⟨rfl, hs, hn⟩⟩ := h1
    · -- out of memory: nothing of the user part is mapped, so there is nothing to share
      rw [if_pos (by decide)]
      have hpriv : Private own1 p1.mem d 0 UPAGES := fun u _ hu hm => by
        rw [mapped_congr (hs u (lt_VPAGES hu) (Or.inl (hu.trans_le hk.kern)))] at hm
        exact absurd hm (hno u hu)
      refine wp_call (freevm_wp hw.phys hw.tables hpriv) fun _ p2 h2 => Or.inl ⟨rfl, ?_, ?_⟩
      · have hb := hw.budget
        rw [hl] at hb
        simp only [List.length_nil] at hb
        omega
      · obtain ⟨own2, hp2, hl2, -⟩ := h2
        exact ⟨own2, hp2, hw.near.trans hl2⟩
    · rw [if_neg (by decide)]
      have hout : ∀ a ∈ rs, ∀ u, a.Has u → u < VPAGES ∧ pte p1.mem d u = pte p.mem d u := fun a ha u hu => by
        have hlt : u < VPAGES := hu.2.trans_le (hok a (List.mem_cons_of_mem k ha)).page_le
        exact ⟨hlt, hs u hlt (Or.inr ((hdk a ha).trans hu.1))⟩
      refine wp_mono (ih hw.phys hw.tables (fun u hu => ?_) (fun a ha => hok a (List.mem_cons_of_mem k ha)) hdis
        fun a ha u hu => ?_) (fun r p2 h2 => ?_) fun _ he => he
      · rw [mapped_congr (hs u (lt_VPAGES hu) (Or.inl (hu.trans_le hk.kern)))]
        exact hno u hu
      · rw [mapped_congr (hout a ha u hu).2]
        exact hnew a (List.mem_cons_of_mem k ha) u hu
      · rcases h2 with ⟨rfl, hlen, own2, hp2, hl2⟩ | ⟨rfl, own2, hw2, hs2, hn2⟩
        · have hb := hw.budget
          exact Or.inl ⟨rfl, by omega, own2, hp2, hw.near.trans hl2⟩
        · refine Or.inr ⟨rfl, own2, hw.trans hw2, fun u hu hou => ?_, fun a ha j hj => ?_⟩
          · have hku := hou k List.mem_cons_self
            rw [hs2 u hu fun a ha => hou a (List.mem_cons_of_mem k ha), hs u hu ?_]
            unfold KRange.Has at hku
            omega
          · rcases List.mem_cons.mp ha with rfl | ha
            · have hlt : a.page + j < VPAGES := (Nat.add_lt_add_left hj _).trans_le hk.page_le
              have hsame := hs2 (a.page + j) hlt fun b hb hhas => by
                have := hdk b hb
                have := hhas.1
                omega
              exact ⟨hw2.dirs _ (lt_dirs hlt) (hn j hj).1, by rw [hsame, (hn j hj).2]⟩
            · exact hn2 a ha j hj

/-! ## Taking a page -/

/-- A page has been taken from the free list and written. -/
theorem Local.taken {D : Frame → Prop} {page : Nat → Nat} (hf : own f = .free) (hm : p'.mem = p.mem) :
    Local D own (update own f .loose) p.mem (p'.setPage f page).mem := by
  have h1 : Local D own (update own f .loose) p.mem p.mem := Local.of_own (by rw [hf]; trivial) trivial
  refine h1.trans (Local.of_mem fun g hg => Or.inl ?_)
  by_cases hgf : g = f
  · subst hgf
    simp [Owner.Within]
  · rw [setPage_mem_of_ne hgf, hm] at hg
    exact absurd rfl hg

/-- An address space is a weaker one. -/
theorem Space.weaken (h : Space true sh own m d n) : Space strict sh own m d n where
  toTables := h.toTables
  le := h.le
  page := h.page
  shows := h.shows
  reach := h.reach
  full _ := h.full rfl
  kern := h.kern
  dev := h.dev
  guarded := h.guarded

/-- Where no region shows the pages are the address space's own. -/
theorem Space.private {lo hi : Nat} (h : Space strict sh own m d n) (hhi : hi ≤ UPAGES) (hsh : ∀ v, lo ≤ v → v < hi → sh v = none) :
    Private own m d lo hi := by
  intro v hlo hv hm
  rw [(h.page v (hv.trans_le hhi) hm).2, Share.owner_none (hsh v hlo hv)]

/-- `setupkvm`: a new directory with the kernel part and no user pages. With 1025 free pages it does not fail. -/
theorem setupkvm_wp (hp : PhysOk L own p) :
    wp (setupkvm L) (fun r p' => ∃ own', PhysOk L own' p' ∧ Local (fun e => own e = .free) own own' p.mem p'.mem ∧
      (r = none ∧ p.freelist.length < 1025 ∨
        ∃ d, r = some d ∧ own d = .free ∧ Space true noShare own' p'.mem d 0 ∧ (∀ f, own f ≠ .free → own' f = own f) ∧
          p'.freelist.length + 1025 = p.freelist.length + absent p'.mem d)) E p := by
  unfold setupkvm
  simp only [wp_bind]
  refine kalloc_wp hp (fun hl => ?_) fun d p1 hfree hm hl hp1 => ?_
  · exact ⟨own, hp, Local.refl, Or.inl ⟨rfl, by simp [hl]⟩⟩
  simp only [wp_bind, wp_modify, wp_ite, wp_throw]
  refine ⟨fun h => absurd h (by decide), fun _ => ?_⟩
  -- the zeroed page is the directory of an empty address space
  have hown : update (update own d .loose) d (.dir d) = update own d (.dir d) :=
    Function.update_idem _ _ _
  have hz : ∀ k, (p1.fill d 0).mem d k = 0 := fun k => by rw [fill_mem_self]
  have hpte : ∀ u, pte (p1.fill d 0).mem d u = 0 := fun u => by simp [pte, hz]
  have hno : ∀ u, ¬ Mapped (p1.fill d 0).mem d u := fun u => by simp [Mapped, hpte]
  have hp2 : PhysOk L (update own d (.dir d)) (p1.fill d 0) := by
    have hr := hp1.relabel (f := d) (o := .dir d) (by simp) (by simp) (by simp)
    rw [hown] at hr
    exact hr.setPage _ _
  have ht2 : Tables (update own d (.dir d)) (p1.fill d 0).mem d := ⟨by simp, fun k _ hk => by simp [hz] at hk⟩
  have hl2 : Local (· = d) own (update own d (.dir d)) p.mem (p1.fill d 0).mem := by
    have h1 : Local (· = d) own (update own d .loose) p.mem (p1.fill d 0).mem := Local.taken hfree hm
    have h2 : Local (· = d) (update own d .loose) (update (update own d .loose) d (.dir d))
        (p1.fill d 0).mem (p1.fill d 0).mem := Local.of_own (by simp [Owner.Within]) rfl
    rw [hown] at h2
    exact h1.trans h2
  have habs : absent (p1.fill d 0).mem d = 1024 := by simp [absent, hz]
  have hlen : p.freelist.length = (p1.fill d 0).freelist.length + 1 := by rw [hl]; rfl
  have hD : ∀ e, e = d → own e = .free := fun e he => he ▸ hfree
  rw [kmap_eq]
  refine wp_mono (setupLoop_wp hp2 ht2 (fun u _ => hno u) (kernRanges_ok L) (kernRanges_pairwise L) fun _ _ u _ => hno u)
    (fun r p3 h3 => ?_) fun _ he => he
  rcases h3 with ⟨rfl, hlt, own3, hp3, hl3⟩ | ⟨rfl, own3, hw, hs, hn⟩
  · exact ⟨own3, hp3, (hl2.trans hl3).mono hD, Or.inl ⟨rfl, by omega⟩⟩
  · have hb := hw.budget
    refine ⟨own3, hw.phys, (hl2.trans hw.near).mono hD, Or.inr ⟨d, rfl, hfree, ?_, fun g hg => ?_, by omega⟩⟩
    · have huser : ∀ v < UPAGES, ¬ Mapped p3.mem d v := fun v hv => by
        rw [mapped_congr (hs v (lt_VPAGES hv) fun k hk hhas => ?_)]
        · exact hno v
        · exact absurd (hv.trans_le ((kernRanges_ok L k hk).kern.trans hhas.1)) (lt_irrefl v)
      refine ⟨hw.tables, Nat.zero_le _, fun v hv hm => absurd hm (huser v hv), fun _ _ hr => (by cases hr),
        fun v hv => absurd hv (Nat.not_lt_zero v), fun _ v hv => absurd hv (Nat.not_lt_zero v), ?_, fun v h1 h2 => ?_, fun v h1 h2 => ?_⟩
      · obtain ⟨-, h⟩ := hn ⟨UPAGES, EXTMEM / PGSIZE, 0, PTE_W⟩ (by simp [kernRanges]) 0 (by decide)
        unfold Mapped
        rw [show UPAGES = UPAGES + 0 from rfl, h, hasP_entry]
      · obtain ⟨h, -⟩ := hn ⟨DEVPAGE, VPAGES - DEVPAGE, DEVPAGE, PTE_W⟩ (by simp [kernRanges]) (v - DEVPAGE)
          (Nat.sub_lt_sub_right h1 h2)
        simp only [Nat.add_sub_cancel' h1] at h
        exact h
      · by_cases hin : ∃ k ∈ kernRanges L, k.Has v
        · obtain ⟨k, hk, hhas⟩ := hin
          obtain ⟨-, h⟩ := hn k hk (v - k.page) (by unfold KRange.Has at hhas; omega)
          rw [Nat.add_sub_cancel' hhas.1, ← Nat.add_mul] at h
          rw [h, hasU_entry _ (kernRanges_ok L k hk).perm]
        · rw [hs v h2 fun k hk hhas => hin ⟨k, hk, hhas⟩, hpte v]
          rfl
    · have hne : g ≠ d := fun he => hg (he ▸ hfree)
      have h1 : update own d (.dir d) g = own g := update_of_ne hne _ _
      rw [hw.keep g (h1 ▸ hg), h1]

/-! ## Adding user pages -/

/-- The page after the last one is not mapped. -/
theorem Space.not_mapped (h : Space strict sh own m d n) (hn : n < UPAGES) : ¬ Mapped m d n :=
  fun hm => absurd (h.page n hn hm).1 (lt_irrefl n)

/-- A page that has been taken is mapped at the end of the user part. -/
theorem mappages_user {Q : Int → Phys → Prop} {perm : Nat} (hp : PhysOk L own p)
    (hs : Space strict sh own p.mem d n) (hn : n < UPAGES) (hf : own f = .loose) (hperm : perm < PGSIZE)
    (hfail : p.freelist = [] → hasP (p.mem d (n / 1024)) = false → Q (-1) p)
    (hok : ∀ p' own', PhysOk L own' p' → Space strict sh own' p'.mem d (n + 1) →
      Local (· = d) own own' p.mem p'.mem → (∀ g, g ≠ f → own g ≠ .free → own' g = own g) → own' f = .user d n →
      (∀ u < VPAGES, pte p'.mem d u = if u = n then f * PGSIZE ||| perm ||| PTE_P else pte p.mem d u) →
      p'.freelist.length + absent p.mem d = p.freelist.length + absent p'.mem d → lacks p.mem d n ≤ p.freelist.length → Q 0 p') :
    wp (mappages d (n * PGSIZE) PGSIZE (f * PGSIZE) perm) Q E p := by
  refine mappages_page hp hs.toTables (lt_VPAGES hn) (hs.not_mapped hn) hfail fun p1 own1 hw hP hpte => ?_
  · have hf1 : own1 f = .loose := by rw [hw.keep f (by rw [hf]; intro he; cases he), hf]
    have hne : ∀ {g e}, (own g).UsedBy e → g ≠ f := by
      rintro g e hg rfl
      simp [hf, Owner.UsedBy] at hg
    have hown : ∀ g, (own g).UsedBy d → update own1 f (.user d n) g = own g := fun g hg => by
      rw [update_of_ne (hne hg), hw.usedBy hg]
    have ht : Tables (update own1 f (.user d n)) p1.mem d := by
      refine hw.tables.congr (fun g hg => update_of_ne ?_ _ _) fun _ _ => rfl
      rintro rfl
      simp [hf1, Owner.TreeOf] at hg
    refine hok p1 (update own1 f (.user d n)) ?_ ?_ ?_ (fun g hg hfree => ?_) (by simp) hpte hw.budget
      (hw.lacks_le (lt_VPAGES hn) hP)
    · exact hw.phys.relabel (by simp [hf1]) (by simp [hf1]) fun he => by cases he
    · refine hs.grow hn ht hown hw.dirs hP hpte (hasP_entry _ _) (fun _ _ => rfl) ?_
      rw [pteFrame_entry f hperm, update_self, Share.owner_none (hs.share_none (hs.not_mapped hn))]
    · exact hw.near.trans (Local.of_own (by rw [hf1]; trivial) rfl)
    · rw [update_of_ne hg, hw.keep g hfree]

/-- What is private stays so when one more page is mapped. -/
theorem Private.map {m' : Mem} {lo hi w : Nat} (h : Private own m d lo hi) (hhi : hi ≤ VPAGES)
    (hpte : ∀ u < VPAGES, pte m' d u = if u = n then w else pte m d u) (hkeep : ∀ g u, own g = .user d u → own' g = own g)
    (hw : own' (pteFrame w) = .user d n) : Private own' m' d lo hi := by
  intro u hu1 hu2 hm
  have he := hpte u (hu2.trans_le hhi)
  by_cases hun : u = n
  · subst hun
    rw [if_pos rfl] at he
    rw [frameAt, he, hw]
  · rw [if_neg hun] at he
    rw [mapped_congr he] at hm
    have ho := h u hu1 hu2 hm
    rw [frameAt_congr he, hkeep _ u ho, ho]

/-- What `allocuvm` and its loop come to, in an address space that had `n0` pages and has `n` now: it has `n0` again, because
memory was short, or it has `newsz` bytes, and the user may use what is new. The entries of the `n0` pages stay. -/
def GrowPost (L : Layout) (strict : Bool) (sh : Share) (d : Frame) (own : Own) (p : Phys) (n0 n newsz : Nat) (r : Nat)
    (p' : Phys) : Prop :=
  ∃ own', PhysOk L own' p' ∧ Local (· = d) own own' p.mem p'.mem ∧ (∀ u < n0, pte p'.mem d u = pte p.mem d u) ∧
    (r = 0 ∧ Space strict sh own' p'.mem d n0 ∧ n < pages newsz ∧ Short p d n (pages newsz) ∨
      r = newsz ∧ Space strict sh own' p'.mem d (pages newsz) ∧ (∀ v, n0 ≤ v → v < pages newsz → UserMapped p'.mem d v) ∧
        (n < pages newsz → 1 + lacks p.mem d n ≤ p.freelist.length) ∧
        p'.freelist.length + (pages newsz - n) + absent p.mem d = p.freelist.length + absent p'.mem d)

/-- The loop has reached the size. -/
theorem GrowPost.done (hp : PhysOk L own p) (hs : Space strict sh own p.mem d n) (huser : ∀ v, n0 ≤ v → v < n → UserMapped p.mem d v)
    (hn : n = pages newsz) : GrowPost L strict sh d own p n0 n newsz newsz p := by
  subst hn
  exact ⟨own, hp, Local.refl, fun _ _ => rfl, Or.inr ⟨rfl, hs, huser, fun h => absurd h (lt_irrefl _), by omega⟩⟩

/-- `allocuvm` gives back what it has taken. -/
theorem allocuvm_undo (hp : PhysOk L own p) (hs : Space strict sh own p.mem d n) (hnew : newsz < KERNBASE) (hn0 : n0 = pages oldsz)
    (h0 : n0 ≤ n) (hn : n < pages newsz) (hpriv : Private own p.mem d n0 UPAGES) :
    wp (deallocuvm L d newsz oldsz)
      (fun _ p' => ∃ own', PhysOk L own' p' ∧ Local (· = d) own own' p.mem p'.mem ∧
        Space strict sh own' p'.mem d n0 ∧ (∀ f, own f = .loose → own' f = .loose) ∧
        ∀ u < n0, pte p'.mem d u = pte p.mem d u) E p := by
  have hU := pages_le hnew.le
  have hlt : oldsz < newsz := by
    by_contra h
    have := pages_mono (Nat.le_of_not_lt h)
    omega
  refine wp_mono (deallocuvm_wp hp hs.toTables hnew.le hlt fun v h1 h2 => hpriv v (hn0 ▸ h1) (h2.trans_le hU))
    (fun _ p1 h1 => ?_) fun _ he => he
  obtain ⟨-, own1, h1⟩ := h1
  rw [← hn0] at h1
  refine ⟨own1, h1.phys, h1.near, hs.shrink h1 h0 hn.le hU, fun f hf => ?_, fun u hu => ?_⟩
  · rcases h1.hands f with h2 | ⟨-, u, -, -, hu⟩
    · rw [h2, hf]
    · rw [hf] at hu
      cases hu
  · exact h1.others u (lt_VPAGES (by omega)) (Or.inl hu)

/-- Each turn of `allocuvm` adds a page, or all of them are given back. -/
theorem allocLoop_wp {turns : Nat} (hp : PhysOk L own p) (hs : Space strict sh own p.mem d n) (hnew : newsz < KERNBASE)
    (hn0 : n0 = pages oldsz) (h0 : n0 ≤ n) (hn : n ≤ pages newsz) (hturns : pages newsz ≤ n + turns)
    (hpriv : Private own p.mem d n0 UPAGES) (huser : ∀ v, n0 ≤ v → v < n → UserMapped p.mem d v) :
    wp (allocLoop L d oldsz newsz turns (n * PGSIZE)) (GrowPost L strict sh d own p n0 n newsz) E p := by
  induction turns generalizing n own p with
  | zero => exact GrowPost.done hp hs huser (by omega)
  | succ turns ih =>
    unfold allocLoop
    simp only [wp_ite, wp_pure, ← lt_pages_iff]
    refine ⟨fun hlt => ?_, fun hge => GrowPost.done hp hs huser (by omega)⟩
    have hnU : n < UPAGES := hlt.trans_le (pages_le hnew.le)
    simp only [wp_bind]
    refine kalloc_wp hp (fun hl => ?_) fun f p1 hfree hm hl hp1 => ?_
    · simp only [wp_bind]
      refine wp_mono (allocuvm_undo hp hs hnew hn0 h0 hlt hpriv) (fun _ p2 h2 => ?_) fun _ he => he
      obtain ⟨own2, hp2, hl2, hs2, -, hkeep⟩ := h2
      refine ⟨own2, hp2, hl2, hkeep, Or.inl ⟨rfl, hs2, hlt, ?_, fun _ => ?_⟩⟩ <;> rw [hl, List.length_nil] <;> omega
    · -- the page is zeroed, and then mapped
      have hl1 : Local (· = d) own (update own f .loose) p.mem (p1.fill f 0).mem := Local.taken hfree hm
      have hs1 : Space strict sh (update own f .loose) (p1.fill f 0).mem d n :=
        hs.local (D := fun _ => False) (Local.taken hfree hm) not_false
      have hne : ∀ g u, own g = .user d u → g ≠ f := by
        rintro g u hg rfl
        rw [hfree] at hg
        cases hg
      have hpte1 : ∀ u < VPAGES, pte (p1.fill f 0).mem d u = pte p.mem d u := fun u hu =>
        hs.pte_congr (fun g hg => by
          have hgf : g ≠ f := fun he => by simp [he, hfree, Owner.TreeOf] at hg
          rw [fill_mem_of_ne hgf, hm]) hu
      have hdir : (p1.fill f 0).mem d = p.mem d := by
        have hdf : d ≠ f := fun he => by
          rw [← he, hs.dir] at hfree
          cases hfree
        rw [fill_mem_of_ne hdf, hm]
      have habs := absent_congr hdir
      have hlack := lacks_congr (v := n) hdir
      have hlen : p.freelist.length = (p1.fill f 0).freelist.length + 1 := by rw [hl]; rfl
      simp only [wp_bind, wp_modify]
      refine mappages_user (hp1.setPage _ _) hs1 hnU (by simp) (by decide) (fun hnil hno => ?_)
        fun p2 own2 hp2 hs2 hl2 hkeep hf2 hpte hb hroom => ?_
      · -- no memory for the page table: the pages mapped so far are freed, and then this one
        rw [if_pos (by decide)]
        have hpriv2 : Private (update own f .loose) (p1.fill f 0).mem d n0 UPAGES := fun u hu1 hu2 hmu => by
          have he := hpte1 u (lt_VPAGES hu2)
          have ho := hpriv u hu1 hu2 ((mapped_congr he).mp hmu)
          rw [frameAt_congr he, update_of_ne (hne _ u ho), ho]
        refine wp_call (allocuvm_undo (hp1.setPage _ _) hs1 hnew hn0 h0 hlt hpriv2) fun _ p3 h3 => ?_
        obtain ⟨own3, hp3, hl3, hs3, hloose, hkeep3⟩ := h3
        have hf3 : own3 f = .loose := hloose f (update_self _ _ _)
        simp only [wp_bind]
        refine kfree_wp hp3 (by rw [hf3]; exact nofun) (by rw [hf3]; exact nofun) fun p4 hp4 hmem _ => ?_
        have hl4 : ∀ D, Local D own3 (update own3 f .free) p3.mem p4.mem := fun D =>
          Local.freed (by rw [hf3]; trivial) hmem
        have hlack1 := hlack.symm.trans (lacks_of_absent hno)
        have habs1 := lacks_le (m := p.mem) (d := d) (lt_VPAGES hnU)
        rw [hnil, List.length_nil] at hlen
        refine ⟨_, hp4, (hl1.trans hl3).trans (hl4 _), fun u hu => ?_,
          Or.inl ⟨rfl, hs3.local (hl4 fun _ => False) not_false, hlt, by omega, fun _ => by omega⟩⟩
        have huV : u < VPAGES := lt_VPAGES (by omega)
        have htree : ∀ g, (own3 g).TreeOf d → p4.mem g = p3.mem g := fun g hg => hmem g fun he => by
          rw [he, hf3] at hg
          exact hg
        rw [hs3.pte_congr htree huV, hkeep3 u hu, hpte1 u huV]
      · rw [if_neg (by decide)]
        rw [u32_next hnU]
        have hpte2 : ∀ u < VPAGES, pte p2.mem d u =
            if u = n then f * PGSIZE ||| (PTE_W ||| PTE_U) ||| PTE_P else pte p.mem d u := fun u hu => by
          rw [hpte u hu, hpte1 u hu]
        have hpriv2 : Private own2 p2.mem d n0 UPAGES := by
          refine hpriv.map UPAGES_lt.le hpte2 (fun g u hg => ?_) ?_
          · have h1 : update own f .loose g = own g := update_of_ne (hne g u hg) _ _
            rw [hkeep g (hne g u hg) (by rw [h1, hg]; exact nofun), h1]
          · rw [pteFrame_entry f (by decide), hf2]
        have huser2 : ∀ v, n0 ≤ v → v < n + 1 → UserMapped p2.mem d v := fun v h1 h2 => by
          have he := hpte2 v (lt_VPAGES (by omega))
          by_cases hvn : v = n
          · rw [if_pos hvn] at he
            exact ⟨by rw [Mapped, he, hasP_entry], by rw [he, hasU_user]⟩
          · rw [if_neg hvn] at he
            exact (userMapped_congr he).mpr (huser v h1 (by omega))
        refine wp_mono (ih hp2 hs2 (by omega) hlt (by omega) hpriv2 huser2) (fun r p3 h3 => ?_) fun _ he => he
        obtain ⟨own3, hp3, hl3, hkeep3, h3⟩ := h3
        refine ⟨own3, hp3, (hl1.trans hl2).trans hl3, fun u hu => ?_, ?_⟩
        · rw [hkeep3 u hu, hpte2 u (lt_VPAGES (by omega)), if_neg (by omega)]
        obtain ⟨rfl, hs3, hlt3, hshort, -⟩ | ⟨rfl, hs3, huser3, -, hb3⟩ := h3
        · exact Or.inl ⟨rfl, hs3, hlt, by omega, fun h => by omega⟩
        · exact Or.inr ⟨rfl, hs3, huser3, fun _ => by omega, by omega⟩

/-- `allocuvm`: when it returns 0 the address space is as it was; otherwise it has the size returned, which is the larger of the
two. -/
theorem allocuvm_wp (hp : PhysOk L own p) (hs : Space strict sh own p.mem d (pages oldsz)) (hold : oldsz ≤ KERNBASE) :
    wp (allocuvm L d oldsz newsz) (fun r p' => ∃ own', PhysOk L own' p' ∧ Local (· = d) own own' p.mem p'.mem ∧
      (∀ u < pages oldsz, pte p'.mem d u = pte p.mem d u) ∧
      (r = 0 ∧ Space strict sh own' p'.mem d (pages oldsz) ∧
          (newsz < KERNBASE → Short p d (pages oldsz) (pages newsz)) ∨
        oldsz ≤ r ∧ newsz ≤ r ∧ (r = newsz ∧ r < KERNBASE ∨ r = oldsz) ∧ Space strict sh own' p'.mem d (pages r) ∧
          (∀ v, pages oldsz ≤ v → v < pages r → UserMapped p'.mem d v) ∧
          (pages oldsz < pages r → 1 + lacks p.mem d (pages oldsz) ≤ p.freelist.length) ∧
          p'.freelist.length + (pages r - pages oldsz) + absent p.mem d = p.freelist.length + absent p'.mem d)) E p := by
  unfold allocuvm
  simp only [wp_ite, wp_pure]
  refine ⟨fun hbig => ⟨own, hp, Local.refl, fun _ _ => trivial, Or.inl ⟨trivial, hs, fun h => absurd h (Nat.not_lt.mpr hbig)⟩⟩,
    fun hnew => ⟨fun hlt => ?_, fun hge => ?_⟩⟩
  · exact ⟨own, hp, Local.refl, fun _ _ => trivial, Or.inr ⟨le_rfl, hlt.le, Or.inr trivial, hs,
      fun v h1 h2 => absurd h2 (Nat.not_lt.mpr h1),
      fun h => absurd h (lt_irrefl _), by omega⟩⟩
  · rw [pgRoundUp_eq hold]
    have hle := Nat.le_of_not_lt hge
    have hlt := Nat.lt_of_not_le hnew
    have hpriv : Private own p.mem d (pages oldsz) UPAGES := fun u hu1 hu2 hm =>
      absurd (hs.page u hu2 hm).1 (Nat.not_lt.mpr hu1)
    refine wp_mono (allocLoop_wp hp hs hlt rfl le_rfl (pages_mono hle) (Nat.le_add_left _ _) hpriv
      fun v h1 h2 => absurd h2 (Nat.not_lt.mpr h1)) (fun r p1 h1 => ?_) fun _ he => he
    obtain ⟨own1, hp1, hl1, hkeep, ⟨rfl, hs1, -, hshort⟩ | ⟨rfl, hs1, huser, hb⟩⟩ := h1
    · exact ⟨own1, hp1, hl1, hkeep, Or.inl ⟨rfl, hs1, fun _ => hshort⟩⟩
    · exact ⟨own1, hp1, hl1, hkeep, Or.inr ⟨hle, le_rfl, Or.inl ⟨rfl, hlt⟩, hs1, huser, hb⟩⟩

/-- `inituvm` when memory is not short: the first page is there. -/
theorem inituvm_wp {init : List UInt8} (hp : PhysOk L own p) (hs : Space true noShare own p.mem d 0)
    (hinit : init.length < PGSIZE) (hlen : absent p.mem d < p.freelist.length) :
    wp (inituvm d init) (fun _ p' => ∃ own', PhysOk L own' p' ∧ Local (· = d) own own' p.mem p'.mem ∧
      Space true noShare own' p'.mem d 1 ∧ p'.freelist.length + 1 + absent p.mem d = p.freelist.length + absent p'.mem d ∧
      ∀ g, own g ≠ .free → own' g = own g) E p := by
  unfold inituvm
  simp only [wp_ite, wp_throw]
  refine ⟨fun h => absurd h (Nat.not_le.mpr hinit), fun _ => ?_⟩
  simp only [wp_bind]
  refine kalloc_wp hp (fun hl => by simp [hl] at hlen) fun f p1 hfree hm hl hp1 => ?_
  have hs1 : Space true noShare (update own f .loose) (p1.fill f 0).mem d 0 :=
    hs.local (D := fun _ => False) (Local.taken hfree hm) not_false
  have hl1 : Local (· = d) own (update own f .loose) p.mem (p1.fill f 0).mem := Local.taken hfree hm
  have hdf : d ≠ f := fun he => by
    rw [← he, hs.dir] at hfree
    cases hfree
  have habs : absent (p1.fill f 0).mem d = absent p.mem d := absent_congr (by rw [fill_mem_of_ne hdf, hm])
  have hlen1 : p.freelist.length = (p1.fill f 0).freelist.length + 1 := by rw [hl]; rfl
  simp only [wp_bind, wp_modify]
  have hU : 0 < UPAGES := by decide
  refine mappages_user (n := 0) (hp1.setPage _ _) hs1 hU (by simp) (by decide) (fun hnil hno => ?_)
    fun p2 own2 hp2 hs2 hl2 hkeep hf2 _ hb _ => ?_
  · rw [hnil, List.length_nil] at hlen1
    have habs1 := (lacks_of_absent hno).ge.trans (lacks_le (by decide))
    omega
  have hl3 : ∀ D, Local D own2 own2 p2.mem (p2.poke f 0 init).mem := fun D => Local.of_mem fun g hg => by
    refine Or.inr fun ht => ?_
    have hgf : g = f := by
      by_contra hne
      exact hg (poke_mem_of_ne hne)
    rw [hgf, hf2] at ht
    exact ht
  refine ⟨own2, hp2.setPage _ _, (hl1.trans hl2).trans (hl3 _), hs2.local (hl3 fun _ => False) not_false, ?_, fun g hg => ?_⟩
  · rw [absent_congr (poke_mem_of_ne hdf), poke_freelist]
    omega
  · have hgf : g ≠ f := fun he => hg (he ▸ hfree)
    have h1 : update own f .loose g = own g := update_of_ne hgf _ _
    rw [hkeep g hgf (h1 ▸ hg), h1]

/-! ## Copying an address space -/

/-- Each turn of `copyuvm` copies a page. -/
theorem copyLoop_wp {src : Frame} {sz turns : Nat} (hp : PhysOk L own p)
    (hsrc : Space strict sh own p.mem src (pages sz)) (hd : Space true noShare own p.mem d n) (hne : src ≠ d)
    (hn : n ≤ pages sz) (hturns : pages sz ≤ n + turns) :
    wp (copyLoop L src d sz turns (n * PGSIZE))
      (fun r p' => ∃ own', PhysOk L own' p' ∧ Local (· = d) own own' p.mem p'.mem ∧
        ∃ k, Space true noShare own' p'.mem d k ∧ (r = true → k = pages sz))
      (fun e => strict = false ∧ e = .copyuvmPresent) p := by
  induction turns generalizing n own p with
  | zero => exact ⟨own, hp, Local.refl, n, hd, fun _ => by omega⟩
  | succ turns ih =>
    unfold copyLoop
    simp only [wp_ite, wp_pure, ← lt_pages_iff]
    refine ⟨fun hlt => ?_, fun hge => ⟨own, hp, Local.refl, n, hd, fun _ => by omega⟩⟩
    have hnU : n < UPAGES := hlt.trans_le hsrc.le
    have hP := hsrc.reach n hlt
    simp only [wp_bind]
    refine walkpgdir_read (lt_VPAGES hnU) (fun _ => ?_) fun h => absurd hP (by rw [h]; decide)
    have heq : p.mem (pteFrame (p.mem src (n / 1024))) (n % 1024) = pte p.mem src n := by rw [pte, if_pos hP]
    simp only [wp_bind, wp_get, wp_ite, wp_throw, heq]
    refine ⟨fun hm => ⟨?_, trivial⟩, fun _ => ?_⟩
    · by_contra hst
      have hmap : hasP (pte p.mem src n) = true := hsrc.full (by simpa using hst) n hlt
      simp [hmap] at hm
    · refine kalloc_wp hp (fun _ => ⟨own, hp, Local.refl, n, hd, fun he => by cases he⟩) fun f p1 hfree hm _ hp1 => ?_
      have hl1 : ∀ D, Local D own (update own f .loose) p.mem
          (p1.setPage f (p1.mem (pteFrame (pte p.mem src n)))).mem := fun D => Local.taken hfree hm
      simp only [wp_bind, wp_modify]
      refine mappages_user (hp1.setPage _ _) (hd.local (hl1 fun _ => False) not_false) hnU (by simp)
        (Nat.mod_lt _ (by decide)) (fun _ _ => ?_) fun p2 own2 hp2 hs2 hl2 _ _ _ _ _ => ?_
      · rw [if_pos (by decide)]
        simp only [wp_bind]
        refine kfree_wp (hp1.setPage _ _) (by simp) (by simp) fun p3 hp3 hmem _ => ?_
        have hl3 : ∀ D, Local D own _ p.mem p3.mem := fun D => (hl1 D).trans (Local.freed (by simp [Owner.Within]) hmem)
        exact ⟨_, hp3, hl3 _, n, hd.local (hl3 fun _ => False) not_false, fun he => by cases he⟩
      · rw [if_neg (by decide)]
        rw [u32_next hnU]
        have hl12 := (hl1 _).trans hl2
        refine wp_mono (ih hp2 (hsrc.local hl12 hne) hs2 hlt (by omega)) (fun r p3 h3 => ?_) fun _ he => he
        obtain ⟨own3, hp3, hl3, h3⟩ := h3
        exact ⟨own3, hp3, hl12.trans hl3, h3⟩

/-- `copyuvm`: a copy with as many pages, or nothing. It panics only on a page that is missing. -/
theorem copyuvm_wp {src : Frame} {sz : Nat} (hp : PhysOk L own p) (hsrc : Space strict sh own p.mem src (pages sz)) :
    wp (copyuvm L src sz)
      (fun r p' => ∃ own', PhysOk L own' p' ∧ Local (fun e => own e = .free) own own' p.mem p'.mem ∧
        ∀ d, r = some d → own d = .free ∧ Space true noShare own' p'.mem d (pages sz))
      (fun e => strict = false ∧ e = .copyuvmPresent) p := by
  unfold copyuvm
  refine wp_call (setupkvm_wp hp) fun r p1 h1 => ?_
  obtain ⟨own1, hp1, hl1, ⟨rfl, -⟩ | ⟨d, rfl, hfree, hs1, hkeep, -⟩⟩ := h1
  · exact ⟨own1, hp1, hl1, nofun⟩
  have hne : src ≠ d := fun he => by
    rw [← he, hsrc.dir] at hfree
    cases hfree
  have hsrc1 : Space strict sh own1 p1.mem src (pages sz) := hsrc.local hl1 (by rw [hsrc.dir]; exact nofun)
  have hD : ∀ e, e = d → own e = .free := fun e he => he ▸ hfree
  refine wp_call (copyLoop_wp (n := 0) hp1 hsrc1 hs1 hne (Nat.zero_le _) (Nat.le_add_left _ _)) fun r p2 h2 => ?_
  obtain ⟨own2, hp2, hl2, k, hs2, hk⟩ := h2
  have hl12 := hl1.trans (hl2.mono fun e he => hD e he)
  cases r with
  | true =>
    refine ⟨own2, hp2, hl12, ?_⟩
    rintro e ⟨rfl⟩
    exact ⟨hfree, hk rfl ▸ hs2⟩
  | false =>
    refine wp_call (freevm_wp hp2 hs2.toTables (hs2.private le_rfl fun _ _ _ => rfl)) fun _ p3 h3 => ?_
    obtain ⟨own3, hp3, hl3, -⟩ := h3
    exact ⟨own3, hp3, hl12.trans (hl3.mono hD), nofun⟩

end OsLab
