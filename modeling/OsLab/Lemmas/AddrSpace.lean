import OsLab.AddrSpace
import Mathlib.Data.Nat.Bitwise

/-!
# Page tables in memory

What an entry says after it has been written, and how the entries of an address space change when a page table is added, when
an entry is set, and when pages of others are written. The functions of `vm.c` are described by these three in the next
module.
-/

namespace OsLab

open Function (update update_self update_of_ne)

/-! ## Entries and addresses -/

/-- What `mappages` stores is present. -/
theorem hasP_entry (pa perm : Nat) : hasP (pa ||| perm ||| PTE_P) = true := by
  have h : (pa ||| perm ||| PTE_P) % 2 ^ 1 = 1 := by
    rw [Nat.or_mod_two_pow]
    rcases Nat.mod_two_eq_zero_or_one (pa ||| perm) with h | h <;> simp [h, PTE_P]
  exact decide_eq_true h

/-- The frame of an entry, whatever its flags are. -/
theorem pteFrame_entry (f : Frame) {perm : Nat} (h : perm < PGSIZE) : pteFrame (f * PGSIZE ||| perm ||| PTE_P) = f := by
  have h1 : perm / 2 ^ 12 = 0 := Nat.div_eq_of_lt h
  have h2 : f * 2 ^ 12 / 2 ^ 12 = f := Nat.mul_div_cancel _ (by decide)
  have h3 : PTE_P / 2 ^ 12 = 0 := by decide
  show (f * 2 ^ 12 ||| perm ||| PTE_P) / 2 ^ 12 = f
  rw [Nat.or_div_two_pow, Nat.or_div_two_pow, h1, h2, h3]
  simp

/-- An entry written without `PTE_U` for a page is out of the user's reach. -/
theorem hasU_entry (f : Nat) {perm : Nat} (h : hasU perm = false) : hasU (f * PGSIZE ||| perm ||| PTE_P) = false := by
  have h : (f * PGSIZE ||| perm ||| PTE_P) / 2 ^ 2 % 2 ^ 1 = 0 := by
    have h1 : f * PGSIZE / 2 ^ 2 % 2 ^ 1 = 0 := by
      simp only [PGSIZE]
      omega
    have h2 : perm / 2 ^ 2 % 2 ^ 1 = 0 := by
      simp only [hasU, decide_eq_false_iff_not] at h
      omega
    rw [Nat.or_div_two_pow, Nat.or_div_two_pow, Nat.or_mod_two_pow, Nat.or_mod_two_pow, h1, h2]
    decide
  simpa [hasU] using h

/-- An entry written with `PTE_U`. -/
theorem hasU_user (f : Nat) : hasU (f * PGSIZE ||| (PTE_W ||| PTE_U) ||| PTE_P) = true := by
  have h : (f * PGSIZE ||| (PTE_W ||| PTE_U) ||| PTE_P) / 2 ^ 2 % 2 ^ 1 = 1 := by
    have h1 : f * PGSIZE / 2 ^ 2 % 2 ^ 1 = 0 := by
      simp only [PGSIZE]
      omega
    rw [Nat.or_div_two_pow, Nat.or_div_two_pow, Nat.or_mod_two_pow, Nat.or_mod_two_pow, h1]
    decide
  simpa [hasU] using h

/-- What `walkpgdir` stores in the directory, in the form of the other entries. -/
theorem pdeWord_eq (t : Frame) : t * PGSIZE ||| PTE_P ||| PTE_W ||| PTE_U = t * PGSIZE ||| 6 ||| PTE_P := by
  rw [Nat.or_assoc, Nat.or_assoc, Nat.or_assoc]
  rfl

@[simp] theorem hasP_zero : hasP 0 = false := rfl

theorem pdx_page {v : Nat} (h : v < VPAGES) : pdx (v * PGSIZE) = v / 1024 := by
  simp only [pdx, PGSIZE, VPAGES] at *
  omega

theorem ptx_page (v : Nat) : ptx (v * PGSIZE) = v % 1024 := by
  simp only [ptx, PGSIZE]
  omega

/-- A page belongs to a size if it begins below it. -/
theorem lt_pages_iff {v sz : Nat} : v < pages sz ↔ v * PGSIZE < sz := by
  simp only [pages, PGSIZE]
  omega

theorem pages_mul (n : Nat) : pages (n * PGSIZE) = n := by
  simp only [pages, PGSIZE]
  omega

/-- A size below the kernel has user pages only. -/
theorem pages_le {sz : Nat} (h : sz ≤ KERNBASE) : pages sz ≤ UPAGES := by
  simp only [pages, UPAGES, PGSIZE, KERNBASE] at *
  omega

theorem pages_mono {a b : Nat} (h : a ≤ b) : pages a ≤ pages b := by
  simp only [pages, PGSIZE]
  omega

/-- `PGROUNDUP` of a size in the user part does not wrap. -/
theorem pgRoundUp_eq {sz : Nat} (h : sz ≤ KERNBASE) : pgRoundUp sz = pages sz * PGSIZE := by
  simp only [pgRoundUp, pages, u32, PGSIZE, KERNBASE] at *
  omega

/-- The address of a page does not wrap. -/
theorem u32_page {v : Nat} (h : v < VPAGES) : u32 (v * PGSIZE) = v * PGSIZE := by
  simp only [u32, VPAGES, PGSIZE] at *
  omega

/-- The step of the loops over user addresses does not wrap. -/
theorem u32_next {v : Nat} (h : v < UPAGES) : u32 (v * PGSIZE + PGSIZE) = (v + 1) * PGSIZE := by
  simp only [u32, UPAGES, KERNBASE, PGSIZE] at *
  omega

theorem UPAGES_lt : UPAGES < VPAGES := by decide

theorem lt_VPAGES {v : Nat} (h : v < UPAGES) : v < VPAGES := h.trans UPAGES_lt

/-- The directory has an entry for every page. -/
theorem lt_dirs {v : Nat} (h : v < VPAGES) : v / 1024 < 1024 := by
  simp only [VPAGES] at h
  omega

/-! ## Memory -/

section

variable {p : Phys} {f g : Frame} {i w off : Nat} {page : Nat → Nat} {bs : List UInt8}

@[simp] theorem setPage_freelist : (p.setPage f page).freelist = p.freelist := rfl

@[simp] theorem setWord_freelist : (p.setWord f i w).freelist = p.freelist := rfl

@[simp] theorem fill_freelist : (p.fill f w).freelist = p.freelist := rfl

@[simp] theorem poke_freelist : (p.poke f off bs).freelist = p.freelist := rfl

theorem setPage_mem_of_ne (h : g ≠ f) : (p.setPage f page).mem g = p.mem g := update_of_ne h _ _

theorem fill_mem_of_ne (h : g ≠ f) : (p.fill f w).mem g = p.mem g := setPage_mem_of_ne h

theorem poke_mem_self : (p.poke f off bs).mem f = pokePage (p.mem f) off bs := update_self _ _ _

theorem poke_mem_of_ne (h : g ≠ f) : (p.poke f off bs).mem g = p.mem g := setPage_mem_of_ne h

theorem setWord_mem_of_ne (h : g ≠ f) : (p.setWord f i w).mem g = p.mem g := setPage_mem_of_ne h

theorem setPage_mem_self : (p.setPage f page).mem f = page := update_self _ _ _

theorem fill_mem_self : (p.fill f w).mem f = fun _ => w := setPage_mem_self

theorem setWord_mem_self : (p.setWord f i w).mem f = update (p.mem f) i w := setPage_mem_self

end

/-! ## The owners and the free list -/

section

variable {L : Layout} {own : Own} {p : Phys} {f : Frame}

/-- The owners fit as long as the free list stays. -/
theorem PhysOk.congr {p' : Phys} (h : PhysOk L own p) (hf : p'.freelist = p.freelist) (hr : p'.refreed = p.refreed) :
    PhysOk L own p' where
  nodup := hf ▸ h.nodup
  free_iff g := by rw [hf]; exact h.free_iff g
  range := h.range
  fresh := hr ▸ h.fresh

/-- Who owns what does not depend on the contents. -/
theorem PhysOk.setPage (h : PhysOk L own p) (f : Frame) (page : Nat → Nat) : PhysOk L own (p.setPage f page) :=
  h.congr rfl rfl

/-- A page that is in use may pass from one user to another. -/
theorem PhysOk.relabel (h : PhysOk L own p) {o : Owner} (hf : own f ≠ .free) (hout : own f ≠ .outside) (ho : o ≠ .free) :
    PhysOk L (update own f o) p where
  nodup := h.nodup
  free_iff g := by
    by_cases hg : g = f
    · subst hg
      simp [h.free_iff, hf, ho]
    · simp [h.free_iff, hg]
  range g hg := by
    by_cases hgf : g = f
    · subst hgf
      exact h.range g hout
    · exact h.range g (by simpa [hgf] using hg)
  fresh := h.fresh

/-- `kalloc` fails when nothing is free, and gives a free page otherwise. -/
theorem kalloc_wp {Q : Option Frame → Phys → Prop} {E : Panic → Prop} (h : PhysOk L own p)
    (hnone : p.freelist = [] → Q none p)
    (hsome : ∀ f p', own f = .free → p'.mem = p.mem → p.freelist = f :: p'.freelist →
      PhysOk L (update own f .loose) p' → Q (some f) p') : Cmd.wp kalloc Q E p := by
  unfold kalloc
  simp only [Cmd.wp_bind, Cmd.wp_get]
  rcases hl : p.freelist with _ | ⟨f, l⟩
  · exact hnone hl
  · have hfree : ∀ g, g ∈ f :: l ↔ own g = .free := fun g => hl ▸ h.free_iff g
    have hnd : (f :: l).Nodup := hl ▸ h.nodup
    have hf : own f = .free := (hfree f).mp List.mem_cons_self
    refine hsome f { p with freelist := l } hf rfl hl ⟨(List.nodup_cons.mp hnd).2, fun g => ?_, fun g hg => ?_, h.fresh⟩
    · by_cases hg : g = f
      · subst hg
        simpa using (List.nodup_cons.mp hnd).1
      · simpa [hg] using hfree g
    · by_cases hgf : g = f
      · subst hgf
        exact h.range g (by simp [hf])
      · exact h.range g (by simpa [hgf] using hg)

/-- `kfree` of a page that is in use. -/
theorem kfree_wp {Q : Unit → Phys → Prop} {E : Panic → Prop} (h : PhysOk L own p) (hf : own f ≠ .free)
    (hout : own f ≠ .outside)
    (hQ : ∀ p', PhysOk L (update own f .free) p' → (∀ g, g ≠ f → p'.mem g = p.mem g) →
      p'.freelist = f :: p.freelist → Q () p') : Cmd.wp (kfree L f) Q E p := by
  have hr := h.range f hout
  have hmem : f ∉ p.freelist := fun hm => hf ((h.free_iff f).mp hm)
  unfold kfree
  simp only [Cmd.wp_bind, Cmd.wp_get, Cmd.wp_ite, Cmd.wp_throw, Cmd.wp_set]
  refine ⟨fun hbad => (hbad.elim hr.1.not_gt hr.2.not_ge).elim, fun _ => hQ _ ⟨?_, fun g => ?_, fun g hg => ?_, ?_⟩ (fun g hg => ?_) rfl⟩
  · exact List.nodup_cons.mpr ⟨hmem, h.nodup⟩
  · by_cases hg : g = f
    · subst hg
      simp
    · simp [hg, h.free_iff]
  · by_cases hgf : g = f
    · subst hgf
      exact hr
    · exact h.range g (by simpa [hgf] using hg)
  · simp [h.fresh, hmem]
  · show ((p.fill f _).setWord f 0 _).mem g = p.mem g
    rw [setWord_mem_of_ne hg, fill_mem_of_ne hg]

end

/-! ## What a function has touched -/

section

variable {D D' : Frame → Prop} {own own' own'' : Own} {m m' m'' : Mem} {d f : Frame} {o : Owner}

/-- What is used by a directory outside of `D` is not within `D`. -/
theorem Owner.UsedBy.not_within (h : o.UsedBy d) (hd : ¬ D d) : ¬ o.Within D := by
  cases o <;> simp_all [Owner.UsedBy, Owner.Within]

/-- A directory uses its own tables. -/
theorem Owner.TreeOf.usedBy (h : o.TreeOf d) : o.UsedBy d := by
  cases o <;> simp_all [Owner.UsedBy, Owner.TreeOf]

/-- Page tables are not for the user. -/
theorem Owner.TreeOf.kernelOnly (h : o.TreeOf d) : o.KernelOnly := by
  cases o <;> simp_all [Owner.KernelOnly, Owner.TreeOf]

theorem Owner.Within.mono (hD : ∀ d, D d → D' d) (h : o.Within D) : o.Within D' := by
  cases o <;> simp_all [Owner.Within]

theorem Local.refl : Local D own own m m := ⟨fun _ _ => rfl, fun _ _ _ => rfl, fun _ h => h⟩

/-- Local changes compose. -/
theorem Local.trans (h : Local D own own' m m') (h' : Local D own' own'' m' m'') : Local D own own'' m m'' where
  keep f hf := by
    have hk := h.keep f hf
    rw [h'.keep f (hk ▸ hf), hk]
  mem f hf ht := by
    have hk := h.keep f hf
    rw [h'.mem f (hk ▸ hf) (hk ▸ ht), h.mem f hf ht]
  stay f hf := h'.stay f (h.stay f hf)

/-- A change that is local to some directories is local to more. -/
theorem Local.mono (hD : ∀ d, D d → D' d) (h : Local D own own' m m') : Local D' own own' m m' where
  keep f hf := h.keep f fun hw => hf (hw.mono hD)
  mem f hf := h.mem f fun hw => hf (hw.mono hD)
  stay f hf := by
    by_cases hw : (own f).Within D
    · exact (h.stay f hw).mono hD
    · rw [h.keep f hw]
      exact hf

/-- Pages have been written that are not the kernel's alone, or that may be written. -/
theorem Local.of_mem (h : ∀ f, m' f ≠ m f → (own f).Within D ∨ ¬ (own f).KernelOnly) : Local D own own m m' where
  keep _ _ := rfl
  mem f hf ht := by
    by_contra hne
    exact (h f hne).elim hf fun hn => hn ht
  stay _ hf := hf

/-- A page has passed to another owner. -/
theorem Local.of_own (hf : (own f).Within D) (ho : o.Within D) : Local D own (update own f o) m m where
  keep g hg := by
    have hne : g ≠ f := fun he => hg (he ▸ hf)
    simp [hne]
  mem _ _ _ := rfl
  stay g hg := by
    by_cases hgf : g = f
    · subst hgf
      simpa using ho
    · simpa [hgf] using hg

end

/-- A page has been freed. -/
theorem Local.freed {D : Frame → Prop} {own : Own} {m m' : Mem} {f : Frame} (hf : (own f).Within D)
    (hmem : ∀ g, g ≠ f → m' g = m g) : Local D own (update own f .free) m m' := by
  have hm : Local D own own m m' := Local.of_mem fun g hg => Or.inl <| by
    by_cases hgf : g = f
    · exact hgf ▸ hf
    · exact absurd (hmem g hgf) hg
  exact hm.trans (Local.of_own hf trivial)

/-! ## How address spaces change -/

section

variable {strict : Bool} {sh sh' : Share} {own own' : Own} {m m' : Mem} {d t f : Frame} {k n u v w : Nat}

/-- A page is mapped by its entry alone. -/
theorem mapped_congr (h : pte m' d v = pte m d v) : Mapped m' d v ↔ Mapped m d v := by
  unfold Mapped
  rw [h]

theorem frameAt_congr (h : pte m' d v = pte m d v) : frameAt m' d v = frameAt m d v := congrArg pteFrame h

theorem userMapped_congr (h : pte m' d v = pte m d v) : UserMapped m' d v ↔ UserMapped m d v := by
  unfold UserMapped Mapped
  rw [h]

/-- A directory is in its own tree. -/
theorem Tables.treeOf_dir (h : Tables own m d) : (own d).TreeOf d := by
  rw [h.dir]
  rfl

/-- The tables that its entries name are in the tree. -/
theorem Tables.treeOf_table (h : Tables own m d) (hk : k < 1024) (hp : hasP (m d k) = true) :
    (own (pteFrame (m d k))).TreeOf d := by
  rw [h.table k hk hp]
  rfl

/-- The tables stand as long as nobody writes to their tree. -/
theorem Tables.congr (h : Tables own m d) (hown : ∀ f, (own f).TreeOf d → own' f = own f)
    (hmem : ∀ f, (own f).TreeOf d → m' f = m f) : Tables own' m' d where
  dir := by rw [hown d h.treeOf_dir, h.dir]
  table k hk hp := by
    rw [hmem d h.treeOf_dir] at hp ⊢
    rw [hown _ (h.treeOf_table hk hp), h.table k hk hp]

/-- The entries of an address space are in its own pages. -/
theorem Tables.pte_congr (h : Tables own m d) (hmem : ∀ f, (own f).TreeOf d → m' f = m f) (hv : v < VPAGES) :
    pte m' d v = pte m d v := by
  unfold pte
  rw [hmem d h.treeOf_dir]
  split
  case isTrue hp => rw [hmem _ (h.treeOf_table (lt_dirs hv) hp)]
  case isFalse => rfl

/-- A page table has been added under an entry that had none: no page is mapped that was not, and none is lost. -/
theorem Tables.add (h : Tables own m d) (m' : Mem) (hk : k < 1024) (hno : hasP (m d k) = false) (ht : own t = .loose)
    (hd : m' d = update (m d) k (t * PGSIZE ||| PTE_P ||| PTE_W ||| PTE_U)) (hz : m' t = fun _ => 0)
    (hmem : ∀ f, f ≠ d → f ≠ t → m' f = m f) :
    Tables (update own t (.table d k)) m' d ∧ (∀ v < VPAGES, pte m' d v = pte m d v) ∧
      hasP (m' d k) = true ∧ (∀ j, hasP (m d j) = true → hasP (m' d j) = true) ∧ absent m' d + 1 = absent m d := by
  have hne : d ≠ t := by
    rintro rfl
    rw [h.dir] at ht
    cases ht
  have hp : hasP (m' d k) = true := by rw [hd, update_self, pdeWord_eq, hasP_entry]
  have hfr : pteFrame (m' d k) = t := by rw [hd, update_self, pdeWord_eq, pteFrame_entry t (by decide)]
  have hold : ∀ j, j ≠ k → m' d j = m d j := fun j hj => by rw [hd, update_of_ne hj]
  have htab : ∀ j < 1024, hasP (m d j) = true → pteFrame (m d j) ≠ d ∧ pteFrame (m d j) ≠ t := by
    intro j hj hpj
    have ho := h.table j hj hpj
    refine ⟨fun he => ?_, fun he => ?_⟩
    · rw [he, h.dir] at ho
      cases ho
    · rw [he, ht] at ho
      cases ho
  refine ⟨⟨by rw [update_of_ne hne, h.dir], fun j hj hpj => ?_⟩, fun v hv => ?_, hp, fun j hj => ?_, ?_⟩
  · by_cases hjk : j = k
    · subst hjk
      rw [hfr, update_self]
    · rw [hold j hjk] at hpj ⊢
      rw [update_of_ne (htab j hj hpj).2, h.table j hj hpj]
  · unfold pte
    by_cases hvk : v / 1024 = k
    · rw [hvk, if_pos hp, hfr, hz]
      simp [hno]
    · rw [hold _ hvk]
      split
      case isTrue hpv => rw [hmem _ (htab _ (lt_dirs hv) hpv).1 (htab _ (lt_dirs hv) hpv).2]
      case isFalse => rfl
  · by_cases hjk : j = k
    · exact hjk ▸ hp
    · rw [hold j hjk]
      exact hj
  · unfold absent
    have heq : (Finset.range 1024).filter (fun j => hasP (m' d j) = false) =
        ((Finset.range 1024).filter fun j => hasP (m d j) = false).erase k := by
      ext j
      simp only [Finset.mem_filter, Finset.mem_erase, Finset.mem_range]
      by_cases hjk : j = k
      · subst hjk
        simp [hp]
      · simp [hjk, hold j hjk]
    rw [heq, Finset.card_erase_add_one (by simp [hk, hno])]

/-- An entry of a page table has been written. -/
theorem Tables.set (h : Tables own m d) (m' : Mem) (hv : v < VPAGES) (hp : hasP (m d (v / 1024)) = true)
    (ht : m' (pteFrame (m d (v / 1024))) = update (m (pteFrame (m d (v / 1024)))) (v % 1024) w)
    (hmem : ∀ f, (own f).TreeOf d → f ≠ pteFrame (m d (v / 1024)) → m' f = m f) :
    Tables own m' d ∧ m' d = m d ∧ ∀ u < VPAGES, pte m' d u = if u = v then w else pte m d u := by
  have hto := h.table _ (lt_dirs hv) hp
  have hd : m' d = m d := hmem d h.treeOf_dir fun he => by
    rw [← he, h.dir] at hto
    cases hto
  refine ⟨⟨h.dir, fun j hj hpj => ?_⟩, hd, fun u hu => ?_⟩
  · rw [hd] at hpj ⊢
    exact h.table j hj hpj
  · unfold pte
    rw [hd]
    by_cases huv : u / 1024 = v / 1024
    · rw [huv, if_pos hp, ht]
      by_cases he : u = v
      · simp [he]
      · have hne : u % 1024 ≠ v % 1024 := by omega
        simp [he, update_of_ne hne, hp]
    · have hne : u ≠ v := fun he => huv (he ▸ rfl)
      rw [if_neg hne]
      split
      case isTrue hpu =>
        have huo := h.table _ (lt_dirs hu) hpu
        rw [hmem _ (h.treeOf_table (lt_dirs hu) hpu)]
        intro he
        rw [he, hto] at huo
        exact huv (Owner.table.inj huo).2.symm
      case isFalse => rfl

/-- A page that is not shared is the directory's own. -/
theorem Share.owner_none (h : sh v = none) : sh.owner d v = .user d v := by
  unfold Share.owner
  rw [h]

/-- A shared page is its region's. -/
theorem Share.owner_some {r : Fin NSHM} (h : sh v = some r) : sh.owner d v = .region r := by
  unfold Share.owner
  rw [h]

/-- Both kinds are used by the directory. -/
theorem Share.owner_usedBy (sh : Share) (d : Frame) (v : Nat) : (sh.owner d v).UsedBy d := by
  unfold Share.owner
  split <;> simp [Owner.UsedBy]

theorem Share.owner_ne_free (sh : Share) (d : Frame) (v : Nat) : sh.owner d v ≠ .free := by
  unfold Share.owner
  split <;> exact nofun

/-- A page for the user is not one of the kernel. -/
theorem Share.not_kernelOnly (sh : Share) (d : Frame) (v : Nat) : ¬ (sh.owner d v).KernelOnly := by
  unfold Share.owner
  split <;> exact not_false

/-- A page that is mapped is one that the address space leads to. -/
theorem Space.usedBy (h : Space strict sh own m d n) (hv : v < UPAGES) (hm : Mapped m d v) :
    (own (frameAt m d v)).UsedBy d := by
  rw [(h.page v hv hm).2]
  exact sh.owner_usedBy d v

/-- An address space depends on the owners of the pages it leads to and on the contents of its page tables. -/
theorem Space.congr (h : Space strict sh own m d n) (hown : ∀ f, (own f).UsedBy d → own' f = own f)
    (hmem : ∀ f, (own f).TreeOf d → m' f = m f) : Space strict sh own' m' d n := by
  have hpte : ∀ v < VPAGES, pte m' d v = pte m d v := fun v hv => h.pte_congr hmem hv
  have hd : m' d = m d := hmem d h.treeOf_dir
  refine ⟨h.toTables.congr (fun f hf => hown f hf.usedBy) hmem, h.le, fun v hv hm => ?_, fun v r hr => ?_, fun v hv => ?_,
    fun hs v hv => ?_, ?_, fun v h1 h2 => ?_, fun v h1 h2 => ?_⟩
  · have he := hpte v (lt_VPAGES hv)
    rw [mapped_congr he] at hm
    rw [frameAt_congr he, hown _ (h.usedBy hv hm)]
    exact h.page v hv hm
  · obtain ⟨hv, hm⟩ := h.shows v r hr
    exact ⟨hv, (mapped_congr (hpte v (lt_VPAGES hv))).mpr hm⟩
  · rw [hd]
    exact h.reach v hv
  · exact (mapped_congr (hpte v (lt_VPAGES (hv.trans_le h.le)))).mpr (h.full hs v hv)
  · exact (mapped_congr (hpte _ UPAGES_lt)).mpr h.kern
  · rw [hd]
    exact h.dev v h1 h2
  · rw [hpte v h2]
    exact h.guarded v h1 h2

/-- A function that touches other address spaces leaves this one. -/
theorem Space.local {D : Frame → Prop} (h : Space strict sh own m d n) (hl : Local D own own' m m') (hd : ¬ D d) :
    Space strict sh own' m' d n :=
  h.congr (fun f hf => hl.keep f (hf.not_within hd)) fun f hf => hl.mem f (hf.usedBy.not_within hd) hf.kernelOnly

/-- A page that no address space leads to passes to another owner. -/
theorem Space.relabel {o : Owner} (h : Space strict sh own m d n) (hf : ¬ (own f).UsedBy d) :
    Space strict sh (update own f o) m d n := by
  refine h.congr (fun g hg => ?_) fun _ _ => rfl
  have hne : g ≠ f := fun he => hf (he ▸ hg)
  simp [hne]

/-- Where nothing is mapped no region shows. -/
theorem Space.share_none (h : Space strict sh own m d n) (hm : ¬ Mapped m d v) : sh v = none := by
  rcases hs : sh v with _ | r
  · rfl
  · exact absurd (h.shows v r hs).2 hm

/-- A page is mapped at the end of the user part. -/
theorem Space.grow (h : Space strict sh own m d n) (hn : n < UPAGES) (ht : Tables own' m' d)
    (hown : ∀ f, (own f).UsedBy d → own' f = own f) (hdirs : ∀ k < 1024, hasP (m d k) = true → hasP (m' d k) = true)
    (hdir : hasP (m' d (n / 1024)) = true) (hpte : ∀ u < VPAGES, pte m' d u = if u = n then w else pte m d u)
    (hw : hasP w = true) (hsh : ∀ u, u ≠ n → sh' u = sh u) (hpage : own' (pteFrame w) = sh'.owner d n) :
    Space strict sh' own' m' d (n + 1) := by
  have hold : ∀ u < VPAGES, u ≠ n → pte m' d u = pte m d u := fun u hu hne => by rw [hpte u hu, if_neg hne]
  have hnew : pte m' d n = w := by rw [hpte n (lt_VPAGES hn), if_pos rfl]
  have howner : ∀ u, u ≠ n → sh'.owner d u = sh.owner d u := fun u hu => by
    unfold Share.owner
    rw [hsh u hu]
  refine ⟨ht, hn, fun v hv hm => ?_, fun v r hr => ?_, fun v hv => ?_, fun hs v hv => ?_, ?_, fun v h1 h2 => ?_,
    fun v h1 h2 => ?_⟩
  · by_cases hvn : v = n
    · subst hvn
      unfold frameAt
      rw [hnew]
      exact ⟨v.lt_succ_self, hpage⟩
    · have he := hold v (lt_VPAGES hv) hvn
      rw [mapped_congr he] at hm
      rw [frameAt_congr he, hown _ (h.usedBy hv hm), howner v hvn]
      exact ⟨(h.page v hv hm).1.trans n.lt_succ_self, (h.page v hv hm).2⟩
  · by_cases hvn : v = n
    · subst hvn
      exact ⟨hn, by rw [Mapped, hnew, hw]⟩
    · rw [hsh v hvn] at hr
      obtain ⟨hv, hm⟩ := h.shows v r hr
      exact ⟨hv, (mapped_congr (hold v (lt_VPAGES hv) hvn)).mpr hm⟩
  · rcases Nat.lt_succ_iff_lt_or_eq.mp hv with hv | rfl
    · exact hdirs _ (lt_dirs (lt_VPAGES (hv.trans hn))) (h.reach v hv)
    · exact hdir
  · rcases Nat.lt_succ_iff_lt_or_eq.mp hv with hv | rfl
    · exact (mapped_congr (hold v (lt_VPAGES (hv.trans hn)) hv.ne)).mpr (h.full hs v hv)
    · unfold Mapped
      rw [hnew, hw]
  · exact (mapped_congr (hold _ UPAGES_lt hn.ne')).mpr h.kern
  · exact hdirs _ (lt_dirs h2) (h.dev v h1 h2)
  · rw [hold v h2 (hn.trans_le h1).ne']
    exact h.guarded v h1 h2

/-- Pages have been unmapped at the end of the user part. -/
theorem Space.shrink {L : Layout} {p p' : Phys} {lo hi : Nat} (h : Space strict sh own p.mem d n)
    (hu : Unmapped L d lo hi own own' p p') (hlo : lo ≤ n) (hhi : n ≤ hi) (hU : hi ≤ UPAGES) :
    Space strict sh own' p'.mem d lo := by
  refine ⟨hu.tables, hlo.trans h.le, fun v hv hm => ?_, fun v r hr => ?_, fun v hv => ?_, fun hs v hv => ?_, ?_,
    fun v h1 h2 => ?_, fun v h1 h2 => ?_⟩
  · have hv' : v < lo := by
      by_contra hge
      by_cases hvi : v < hi
      · exact hu.gone v (Nat.le_of_not_lt hge) hvi hm
      · rw [mapped_congr (hu.others v (lt_VPAGES hv) (Or.inr (Nat.le_of_not_lt hvi)))] at hm
        exact absurd (h.page v hv hm).1 (by omega)
    have he := hu.others v (lt_VPAGES hv) (Or.inl hv')
    rw [mapped_congr he] at hm
    rw [frameAt_congr he]
    obtain ⟨-, ho⟩ := h.page v hv hm
    refine ⟨hv', ?_⟩
    rcases hu.hands (frameAt p.mem d v) with heq | ⟨-, u, hu1, -, hu3⟩
    · rw [heq]
      exact ho
    · -- a page that was freed had a page number of the range
      rw [hu3] at ho
      unfold Share.owner at ho
      split at ho
      · have := (Owner.user.inj ho).2
        omega
      · cases ho
  · -- the page of a region is not among those that were freed
    obtain ⟨hv, hm⟩ := h.shows v r hr
    have ho : own (frameAt p.mem d v) = .region r := ((h.page v hv hm).2).trans (Share.owner_some hr)
    have hout : v < lo ∨ hi ≤ v := by
      by_contra hin
      have hfree := hu.freed v (by omega) (by omega) hm
      rcases hu.hands (frameAt p.mem d v) with heq | ⟨-, u, -, -, heq⟩
      · rw [heq, ho] at hfree
        cases hfree
      · rw [ho] at heq
        cases heq
    exact ⟨hv, (mapped_congr (hu.others v (lt_VPAGES hv) hout)).mpr hm⟩
  · rw [hu.dirs]
    exact h.reach v (hv.trans_le hlo)
  · have he := hu.others v (lt_VPAGES (hv.trans_le (hlo.trans h.le))) (Or.inl hv)
    exact (mapped_congr he).mpr (h.full hs v (hv.trans_le hlo))
  · exact (mapped_congr (hu.others _ UPAGES_lt (Or.inr hU))).mpr h.kern
  · rw [hu.dirs]
    exact h.dev v h1 h2
  · rw [hu.others v h2 (Or.inr (hU.trans h1))]
    exact h.guarded v h1 h2

/-- A process has one directory. -/
theorem Lives.pgdir_eq {lim : Nat} {i : Slot} {p : Proc} {k e : Frame} (h : Lives strict lim own sh m i p d k) (hd : p.pgdir = some e) :
    d = e :=
  Option.some.inj (h.pgdir.symm.trans hd)

end

end OsLab
