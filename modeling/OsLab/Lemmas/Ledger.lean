import OsLab.Lemmas.Teardown

/-!
# Pages taken and given back

While an address space is being built, every page taken from the free list is its directory, one of its page tables, one of its user
pages, or still in the hands of the builder; with the pages that are left these are the free list of the start, in some order (`Built`).
So what `freevm` gives back is all that was taken (`freevm_built`), and a `copyuvm` that fails leaves the free list as it found it
(`copyuvm_restored`), wherever memory ran out and whatever the address space is that was to be copied.
-/

namespace OsLab

open Cmd

/-! ## The entries of a table -/

section

variable {α β : Type} [DecidableEq α] {l : List α} {e e' : α → Option β} {i j : α} {x : β}

/-- One more entry is there. -/
theorem perm_filterMap_insert (hl : l.Nodup) (hi : i ∈ l) (hold : e i = none) (hnew : e' i = some x)
    (hsame : ∀ j ∈ l, j ≠ i → e' j = e j) : (l.filterMap e').Perm (x :: l.filterMap e) := by
  have hperm := List.perm_cons_erase hi
  have h1 : (l.filterMap e').Perm (x :: (l.erase i).filterMap e') := by
    have h := hperm.filterMap e'
    rwa [List.filterMap_cons_some hnew] at h
  have h2 : (l.filterMap e).Perm ((l.erase i).filterMap e) := by
    have h := hperm.filterMap e
    rwa [List.filterMap_cons_none hold] at h
  have h3 : (l.erase i).filterMap e' = (l.erase i).filterMap e :=
    List.filterMap_congr fun j hj => hsame j (List.mem_of_mem_erase hj) fun he => hl.not_mem_erase (he ▸ hj)
  rw [h3] at h1
  exact h1.trans (h2.symm.cons x)

/-- Entries that are all different show where they are. -/
theorem eq_of_nodup_filterMap (h : (l.filterMap e).Nodup) (hi : i ∈ l) (hj : j ∈ l) (hei : e i = some x) (hej : e j = some x) :
    i = j := by
  by_contra hne
  have hp : l.Pairwise fun a b => ∀ y, e a = some y → ∀ z, e b = some z → y ≠ z := List.pairwise_filterMap.mp h
  have : Std.Symm fun a b => ∀ y, e a = some y → ∀ z, e b = some z → y ≠ z := ⟨fun a b hab y hy z hz => (hab z hz y hy).symm⟩
  exact hp.forall hi hj hne x hei x hej rfl

end

/-- The page that an entry shows. -/
def entryPage (w : Nat) : Option Frame := if hasP w then some (pteFrame w) else none

theorem entryPage_pos {w : Nat} (h : hasP w = true) : entryPage w = some (pteFrame w) := if_pos h

theorem entryPage_neg {w : Nat} (h : ¬ hasP w = true) : entryPage w = none := if_neg h

/-- The page tables under a directory. -/
@[irreducible] def tablePages (m : Mem) (d : Frame) : List Frame := (List.range 1024).filterMap fun k => entryPage (m d k)

/-- The user pages of an address space. -/
@[irreducible] def userPages (m : Mem) (d : Frame) : List Frame := (List.range UPAGES).filterMap fun v => entryPage (pte m d v)

section

variable {L : Layout} {p0 p p' : Phys} {m m' : Mem} {d f t : Frame} {k v w : Nat} {xs : List Frame} {E : Panic → Prop}

theorem entryPage_eq_some : entryPage w = some f ↔ hasP w = true ∧ pteFrame w = f := by
  unfold entryPage
  split <;> simp [*]

theorem mem_tablePages : t ∈ tablePages m d ↔ ∃ k < 1024, hasP (m d k) = true ∧ pteFrame (m d k) = t := by
  unfold tablePages
  rw [List.mem_filterMap]
  simp only [List.mem_range, entryPage_eq_some]

theorem mem_userPages : f ∈ userPages m d ↔ ∃ v < UPAGES, Mapped m d v ∧ frameAt m d v = f := by
  unfold userPages
  rw [List.mem_filterMap]
  simp only [List.mem_range, entryPage_eq_some]
  rfl

/-- The tree is the directory and its tables. -/
theorem inTree_iff_tablePages : InTree m d f ↔ f = d ∨ f ∈ tablePages m d := by rw [mem_tablePages, InTree]

theorem tablePages_congr (h : m' d = m d) : tablePages m' d = tablePages m d := by unfold tablePages; rw [h]

theorem userPages_congr (h : ∀ v < UPAGES, pte m' d v = pte m d v) : userPages m' d = userPages m d := by
  unfold userPages
  exact List.filterMap_congr fun v hv => by rw [h v (List.mem_range.mp hv)]

/-- A page table has been added under an entry that had none. -/
theorem tablePages_insert (hk : k < 1024) (hno : ¬ hasP (m d k) = true) (hP : hasP (m' d k) = true)
    (hsame : ∀ j, j ≠ k → m' d j = m d j) : (tablePages m' d).Perm (pteFrame (m' d k) :: tablePages m d) := by
  unfold tablePages
  exact perm_filterMap_insert List.nodup_range (List.mem_range.mpr hk) (entryPage_neg hno) (entryPage_pos hP) fun j _ hj => by
    rw [hsame j hj]

/-- A user page has been mapped. -/
theorem userPages_insert (hv : v < UPAGES) (hno : ¬ Mapped m d v) (hm : Mapped m' d v)
    (hsame : ∀ u < UPAGES, u ≠ v → pte m' d u = pte m d u) : (userPages m' d).Perm (frameAt m' d v :: userPages m d) := by
  unfold userPages
  exact perm_filterMap_insert List.nodup_range (List.mem_range.mpr hv) (entryPage_neg hno) (entryPage_pos hm) fun u hu hne => by
    rw [hsame u (List.mem_range.mp hu) hne]

/-- The owners as far as the page tables of `d` go. -/
def treeOwn (m : Mem) (d : Frame) : Own := fun f =>
  if f = d then .dir d
  else match (List.range 1024).find? fun k => hasP (m d k) && pteFrame (m d k) == f with
    | some k => .table d k
    | none => .loose

theorem treeOf_treeOwn (h : (treeOwn m d f).TreeOf d) : InTree m d f := by
  unfold treeOwn at h
  split at h
  case isTrue hf => exact Or.inl hf
  case isFalse =>
    split at h
    case h_1 k hk =>
      have hP := List.find?_some hk
      simp only [Bool.and_eq_true, beq_iff_eq] at hP
      exact Or.inr ⟨k, List.mem_range.mp (List.mem_of_find?_eq_some hk), hP⟩
    case h_2 => exact h.elim

theorem treeOwn_loose (h : ¬ InTree m d f) : treeOwn m d f = .loose := by
  unfold treeOwn
  rw [if_neg fun hf => h (Or.inl hf)]
  split
  case h_1 k hk =>
    have hP := List.find?_some hk
    simp only [Bool.and_eq_true, beq_iff_eq] at hP
    exact absurd (Or.inr ⟨k, List.mem_range.mp (List.mem_of_find?_eq_some hk), hP⟩) h
  case h_2 => rfl

/-- Page tables that are all different pages, and not the directory. -/
theorem tables_treeOwn (h : (d :: tablePages m d).Nodup) : Tables (treeOwn m d) m d := by
  obtain ⟨hd, hnd⟩ := List.nodup_cons.mp h
  unfold tablePages at hnd
  refine ⟨if_pos rfl, fun k hk hP => ?_⟩
  have hne : pteFrame (m d k) ≠ d := fun he => hd (mem_tablePages.mpr ⟨k, hk, hP, he⟩)
  unfold treeOwn
  rw [if_neg hne]
  split
  case h_1 j hj =>
    have hPj := List.find?_some hj
    simp only [Bool.and_eq_true, beq_iff_eq] at hPj
    have hjk := eq_of_nodup_filterMap hnd (List.mem_of_find?_eq_some hj) (List.mem_range.mpr hk)
      ((entryPage_pos hPj.1).trans (congrArg some hPj.2)) (entryPage_pos hP)
    rw [hjk]
  case h_2 hnone =>
    have := List.find?_eq_none.mp hnone k (List.mem_range.mpr hk)
    simp [hP] at this

/-! ## The ledger -/

/-- The pages that have been taken since `p0` are the directory `d`, the page tables and user pages under it, and those in `xs`; no
other page has been written. -/
structure Built (p0 p : Phys) (d : Frame) (xs : List Frame) : Prop where
  nodup : p0.freelist.Nodup
  pages : p0.freelist.Perm (d :: (tablePages p.mem d ++ (userPages p.mem d ++ (xs ++ p.freelist))))
  mem : ∀ f, f ∉ p0.freelist → p.mem f = p0.mem f

/-- The free list is as it was, and what was not on it has not been written. -/
structure Restored (p0 p : Phys) : Prop where
  free : p.freelist.Perm p0.freelist
  mem : ∀ f, f ∉ p0.freelist → p.mem f = p0.mem f

namespace Built

/-- No page is in two places. -/
theorem all_nodup (h : Built p0 p d xs) : (d :: (tablePages p.mem d ++ (userPages p.mem d ++ (xs ++ p.freelist)))).Nodup :=
  h.pages.nodup_iff.mp h.nodup

/-- The pages of the tree are in order. -/
theorem tables (h : Built p0 p d xs) : Tables (treeOwn p.mem d) p.mem d := by
  refine tables_treeOwn (h.all_nodup.sublist ?_)
  exact (List.sublist_append_left _ _).cons_cons d

/-- All that is built was free before. -/
theorem taken (h : Built p0 p d xs) (hf : f = d ∨ f ∈ tablePages p.mem d ∨ f ∈ userPages p.mem d ∨ f ∈ xs) : f ∈ p0.freelist := by
  refine h.pages.mem_iff.mpr ?_
  simp only [List.mem_cons, List.mem_append]
  tauto

/-- A page that is not of the tree. -/
theorem not_inTree (h : Built p0 p d xs) (hf : f ∈ userPages p.mem d ∨ f ∈ xs) : ¬ InTree p.mem d f := by
  rw [inTree_iff_tablePages]
  have hnd := h.all_nodup
  rw [List.nodup_cons, List.nodup_append] at hnd
  have hin : f ∈ userPages p.mem d ++ (xs ++ p.freelist) := by
    simp only [List.mem_append]
    tauto
  rintro (rfl | ht)
  · exact hnd.1 (List.mem_append_right _ hin)
  · exact hnd.2.2.2 f ht f hin rfl

/-- A page has been taken. -/
theorem alloc {l : List Frame} (h : Built p0 p d xs) (hl : p.freelist = f :: l) : Built p0 { p with freelist := l } d (f :: xs) := by
  refine ⟨h.nodup, h.pages.trans (((List.Perm.append_left _ ?_).append_left _).cons d), h.mem⟩
  rw [hl]
  exact List.perm_middle

/-- A page in hand has been written. -/
theorem write (h : Built p0 p d xs) (hf : f ∈ xs) (page : Nat → Nat) :
    Built p0 (p.setPage f page) d xs ∧ ∀ u < VPAGES, pte (p.setPage f page).mem d u = pte p.mem d u := by
  have hne : ∀ g, InTree p.mem d g → (p.setPage f page).mem g = p.mem g := fun g hg =>
    setPage_mem_of_ne fun he => h.not_inTree (Or.inr hf) (he ▸ hg)
  have hpte : ∀ u < VPAGES, pte (p.setPage f page).mem d u = pte p.mem d u := fun u hu => pte_of_tree hne hu
  refine ⟨⟨h.nodup, ?_, fun g hg => ?_⟩, hpte⟩
  · rw [tablePages_congr (hne d InTree.self), userPages_congr fun u hu => hpte u (lt_VPAGES hu)]
    exact h.pages
  · have hgf : g ≠ f := fun he => hg (he ▸ h.taken (Or.inr (Or.inr (Or.inr hf))))
    rw [setPage_mem_of_ne hgf, h.mem g hg]

/-- A page in hand has become a page table. -/
theorem table (h : Built p0 p d (t :: xs)) (hk : k < 1024) (hno : hasP (p.mem d k) = false) :
    Built p0 ((p.fill t 0).setWord d k (t * PGSIZE ||| PTE_P ||| PTE_W ||| PTE_U)) d xs ∧
      hasP (((p.fill t 0).setWord d k (t * PGSIZE ||| PTE_P ||| PTE_W ||| PTE_U)).mem d k) = true ∧
      pteFrame (((p.fill t 0).setWord d k (t * PGSIZE ||| PTE_P ||| PTE_W ||| PTE_U)).mem d k) = t ∧
      ∀ u < VPAGES, pte ((p.fill t 0).setWord d k (t * PGSIZE ||| PTE_P ||| PTE_W ||| PTE_U)).mem d u = pte p.mem d u := by
  have hout : ¬ InTree p.mem d t := h.not_inTree (Or.inr List.mem_cons_self)
  have htd : t ≠ d := fun he => hout (Or.inl he)
  have hdir : ((p.fill t 0).setWord d k (t * PGSIZE ||| PTE_P ||| PTE_W ||| PTE_U)).mem d =
      Function.update (p.mem d) k (t * PGSIZE ||| PTE_P ||| PTE_W ||| PTE_U) := by rw [setWord_mem_self, fill_mem_of_ne htd.symm]
  obtain ⟨-, hpte, hP, -, -⟩ := h.tables.add ((p.fill t 0).setWord d k (t * PGSIZE ||| PTE_P ||| PTE_W ||| PTE_U)).mem hk hno
    (treeOwn_loose hout) hdir (by rw [setWord_mem_of_ne htd, fill_mem_self])
    fun g hgd hgt => by rw [setWord_mem_of_ne hgd, fill_mem_of_ne hgt]
  have hfr : pteFrame (((p.fill t 0).setWord d k (t * PGSIZE ||| PTE_P ||| PTE_W ||| PTE_U)).mem d k) = t := by
    rw [hdir, Function.update_self, pdeWord_eq, pteFrame_entry t (by decide)]
  refine ⟨⟨h.nodup, ?_, fun g hg => ?_⟩, hP, hfr, hpte⟩
  · rw [userPages_congr fun u hu => hpte u (lt_VPAGES hu)]
    have hnew := tablePages_insert hk (by rw [hno]; exact nofun) hP fun j hj => by rw [hdir, Function.update_of_ne hj]
    rw [hfr] at hnew
    refine h.pages.trans (List.Perm.cons d (List.Perm.trans ?_ (hnew.append_right _).symm))
    -- `t` comes before the page tables
    have hmid : (userPages p.mem d ++ (t :: xs ++ p.freelist)).Perm (t :: (userPages p.mem d ++ (xs ++ p.freelist))) :=
      List.perm_middle
    exact (hmid.append_left _).trans List.perm_middle
  · have hgd : g ≠ d := fun he => hg (he ▸ h.taken (Or.inl rfl))
    have hgt : g ≠ t := fun he => hg (he ▸ h.taken (Or.inr (Or.inr (Or.inr List.mem_cons_self))))
    rw [setWord_mem_of_ne hgd, fill_mem_of_ne hgt, h.mem g hg]

/-- What the entries say when one of them has been written. -/
theorem set_pte (h : Built p0 p d xs) (hv : v < VPAGES) (hP : hasP (p.mem d (v / 1024)) = true) (w : Nat) :
    (p.setWord (pteFrame (p.mem d (v / 1024))) (v % 1024) w).mem d = p.mem d ∧
      (∀ u < VPAGES, pte (p.setWord (pteFrame (p.mem d (v / 1024))) (v % 1024) w).mem d u = if u = v then w else pte p.mem d u) ∧
      ∀ f, f ∉ p0.freelist → (p.setWord (pteFrame (p.mem d (v / 1024))) (v % 1024) w).mem f = p0.mem f := by
  obtain ⟨-, hd, hpte⟩ := h.tables.set (w := w) (p.setWord (pteFrame (p.mem d (v / 1024))) (v % 1024) w).mem hv hP
    setWord_mem_self fun g _ hg => setWord_mem_of_ne hg
  refine ⟨hd, hpte, fun g hg => ?_⟩
  have hin : pteFrame (p.mem d (v / 1024)) ∈ tablePages p.mem d := mem_tablePages.mpr ⟨_, lt_dirs hv, hP, rfl⟩
  have hgt : g ≠ pteFrame (p.mem d (v / 1024)) := fun he => hg (he ▸ h.taken (Or.inr (Or.inl hin)))
  rw [setWord_mem_of_ne hgt, h.mem g hg]

/-- An entry of the kernel part has been written. -/
theorem set_kern (h : Built p0 p d xs) (hU : UPAGES ≤ v) (hv : v < VPAGES) (hP : hasP (p.mem d (v / 1024)) = true) (w : Nat) :
    Built p0 (p.setWord (pteFrame (p.mem d (v / 1024))) (v % 1024) w) d xs := by
  obtain ⟨hd, hpte, hmem⟩ := h.set_pte hv hP w
  refine ⟨h.nodup, ?_, hmem⟩
  have hsame : ∀ u < UPAGES, pte (p.setWord (pteFrame (p.mem d (v / 1024))) (v % 1024) w).mem d u = pte p.mem d u := fun u hu => by
    rw [hpte u (lt_VPAGES hu), if_neg (hu.trans_le hU).ne]
  rw [tablePages_congr hd, userPages_congr hsame]
  exact h.pages

/-- A page in hand has become a user page. -/
theorem set_user (h : Built p0 p d (f :: xs)) (hv : v < UPAGES) (hP : hasP (p.mem d (v / 1024)) = true) (hno : ¬ Mapped p.mem d v)
    (hw : hasP w = true) (hf : pteFrame w = f) : Built p0 (p.setWord (pteFrame (p.mem d (v / 1024))) (v % 1024) w) d xs := by
  obtain ⟨hd, hpte, hmem⟩ := h.set_pte (lt_VPAGES hv) hP w
  refine ⟨h.nodup, ?_, hmem⟩
  rw [tablePages_congr hd, setWord_freelist]
  have hv' : pte (p.setWord (pteFrame (p.mem d (v / 1024))) (v % 1024) w).mem d v = w := by rw [hpte v (lt_VPAGES hv), if_pos rfl]
  have hnew := userPages_insert hv hno (by rw [Mapped, hv']; exact hw) fun u hu hne => by rw [hpte u (lt_VPAGES hu), if_neg hne]
  rw [frameAt, hv', hf] at hnew
  refine h.pages.trans (List.Perm.cons d (List.Perm.append_left _ (List.Perm.trans ?_ (hnew.append_right _).symm)))
  rw [List.cons_append, List.cons_append]
  exact List.perm_middle

/-- A page in hand has been freed. -/
theorem free (h : Built p0 p d (f :: xs)) (hmem : ∀ g, g ≠ f → p'.mem g = p.mem g) (hl : p'.freelist = f :: p.freelist) :
    Built p0 p' d xs := by
  have hout := h.not_inTree (Or.inr List.mem_cons_self)
  have hne : ∀ g, InTree p.mem d g → p'.mem g = p.mem g := fun g hg => hmem g fun he => hout (he ▸ hg)
  refine ⟨h.nodup, ?_, fun g hg => ?_⟩
  · rw [tablePages_congr (hne d InTree.self), userPages_congr fun u hu => pte_of_tree hne (lt_VPAGES hu), hl]
    exact h.pages.trans ((List.Perm.append_left _ (List.Perm.append_left _ List.perm_middle.symm)).cons d)
  · rw [hmem g fun he => hg (he ▸ h.taken (Or.inr (Or.inr (Or.inr List.mem_cons_self)))), h.mem g hg]

/-- A user page has been freed, and its entry cleared. -/
theorem unmap (h : Built p0 p d xs) (hv : v < UPAGES) (hP : hasP (p.mem d (v / 1024)) = true) (hm : Mapped p.mem d v)
    (hmem : ∀ g, g ≠ frameAt p.mem d v → p'.mem g = p.mem g) (hl : p'.freelist = frameAt p.mem d v :: p.freelist) :
    Built p0 (p'.setWord (pteFrame (p.mem d (v / 1024))) (v % 1024) 0) d xs ∧
      ∀ u < VPAGES, pte (p'.setWord (pteFrame (p.mem d (v / 1024))) (v % 1024) 0).mem d u = if u = v then 0 else pte p.mem d u := by
  have hin : frameAt p.mem d v ∈ userPages p.mem d := mem_userPages.mpr ⟨v, hv, hm, rfl⟩
  have hout := h.not_inTree (Or.inl hin)
  have htab : InTree p.mem d (pteFrame (p.mem d (v / 1024))) := inTree_table (lt_dirs (lt_VPAGES hv)) hP
  obtain ⟨-, hd, hpte⟩ := h.tables.set (w := 0) (p'.setWord (pteFrame (p.mem d (v / 1024))) (v % 1024) 0).mem (lt_VPAGES hv) hP
    (by rw [setWord_mem_self, hmem _ fun he => hout (he ▸ htab)])
    fun g hg hne => by rw [setWord_mem_of_ne hne, hmem _ fun he => hout (he ▸ treeOf_treeOwn hg)]
  refine ⟨⟨h.nodup, ?_, fun g hg => ?_⟩, hpte⟩
  · rw [tablePages_congr hd, setWord_freelist, hl]
    have hgone : ¬ Mapped (p'.setWord (pteFrame (p.mem d (v / 1024))) (v % 1024) 0).mem d v := by
      rw [Mapped, hpte v (lt_VPAGES hv), if_pos rfl]
      intro he; cases he
    have hold := userPages_insert hv hgone hm fun u hu hne => by rw [hpte u (lt_VPAGES hu), if_neg hne]
    refine h.pages.trans (List.Perm.cons d (List.Perm.append_left _ ((hold.append_right _).trans ?_)))
    rw [List.cons_append]
    exact List.Perm.trans List.perm_middle.symm (List.Perm.append_left _ List.perm_middle.symm)
  · have hgt : g ≠ pteFrame (p.mem d (v / 1024)) := fun he =>
      hg (he ▸ h.taken (Or.inr (Or.inl (mem_tablePages.mpr ⟨_, lt_dirs (lt_VPAGES hv), hP, rfl⟩))))
    rw [setWord_mem_of_ne hgt, hmem g fun he => hg (he ▸ h.taken (Or.inr (Or.inr (Or.inl hin)))), h.mem g hg]

end Built

/-! ## The functions that build and free -/

theorem wp_kalloc_nil {Q : Option Frame → Phys → Prop} (hl : p.freelist = []) : wp kalloc Q E p ↔ Q none p := by
  unfold kalloc
  simp only [wp_bind, wp_get, hl, wp_pure]

theorem wp_kalloc_cons {Q : Option Frame → Phys → Prop} {l : List Frame} (hl : p.freelist = f :: l) :
    wp kalloc Q E p ↔ Q (some f) { p with freelist := l } := by
  unfold kalloc
  simp only [wp_bind, wp_get, hl, wp_set, wp_pure]

/-- The first free page, if there is one. -/
theorem kalloc_list {Q : Option Frame → Phys → Prop} (hnone : p.freelist = [] → Q none p)
    (hsome : ∀ f l, p.freelist = f :: l → Q (some f) { p with freelist := l }) : wp kalloc Q E p := by
  rcases hl : p.freelist with _ | ⟨f, l⟩
  · exact (wp_kalloc_nil hl).mpr (hnone hl)
  · exact (wp_kalloc_cons hl).mpr (hsome f l hl)

/-- `kfree` frees the page, or panics. -/
theorem kfree_list {Q : Unit → Phys → Prop}
    (hQ : ∀ p', (∀ g, g ≠ f → p'.mem g = p.mem g) → p'.freelist = f :: p.freelist → Q () p') :
    wp (kfree L f) Q (fun _ => True) p := by
  unfold kfree
  simp only [wp_bind, wp_get, wp_ite, wp_throw, wp_set]
  exact ⟨fun _ => trivial, fun _ => hQ _ (fun g hg => (setWord_mem_of_ne hg).trans (fill_mem_of_ne hg)) rfl⟩

/-- A page table is taken from the free pages. -/
theorem walkpgdir_built {Q : Option (Frame × Nat) → Phys → Prop} (h : Built p0 p d xs) (hv : v < VPAGES) (hnone : Q none p)
    (hsome : ∀ p', Built p0 p' d xs → hasP (p'.mem d (v / 1024)) = true → (∀ u < VPAGES, pte p'.mem d u = pte p.mem d u) →
      Q (some (pteFrame (p'.mem d (v / 1024)), v % 1024)) p') :
    wp (walkpgdir d (v * PGSIZE) true) Q E p := by
  unfold walkpgdir
  simp only [wp_bind, wp_get, wp_ite, wp_pure, pdx_page hv, ptx_page]
  refine ⟨fun hyes => hsome p h hyes fun _ _ => rfl, fun hno => ⟨fun _ => ?_, fun hf => absurd trivial hf⟩⟩
  refine kalloc_list (fun _ => hnone) fun t l hl => ?_
  simp only [wp_bind, wp_modify, wp_pure]
  obtain ⟨hb, hP, hfr, hpte⟩ := (h.alloc hl).table (lt_dirs hv) (Bool.eq_false_iff.mpr hno)
  have hQ := hsome _ hb hP hpte
  rwa [hfr] at hQ

/-- The loop of `mappages` in the kernel part. -/
theorem mapLoop_built {n pa : Nat} (perm : Nat) (h : Built p0 p d xs) (hU : UPAGES ≤ v) (hv : v + n ≤ VPAGES) :
    wp (mapLoop d perm n (v * PGSIZE) pa)
      (fun r p' => Built p0 p' d xs ∧ (∀ u < VPAGES, Mapped p.mem d u → Mapped p'.mem d u) ∧ (¬ r < 0 → 0 < n → Mapped p'.mem d v))
      (fun _ => True) p := by
  induction n generalizing v pa p with
  | zero => exact ⟨h, fun _ _ hm => hm, fun _ hn => absurd hn (by decide)⟩
  | succ n ih =>
    have hvv : v < VPAGES := by omega
    unfold mapLoop
    simp only [wp_bind]
    refine walkpgdir_built h hvv ⟨h, fun _ _ hm => hm, fun hr => absurd (by decide) hr⟩ fun p1 h1 hP hpte => ?_
    simp only [wp_bind, wp_get, wp_ite, wp_throw, wp_set]
    refine ⟨fun _ => trivial, fun _ => ?_⟩
    obtain ⟨-, hpte2, -⟩ := h1.set_pte hvv hP (pa ||| perm ||| PTE_P)
    have h2 := h1.set_kern hU hvv hP (pa ||| perm ||| PTE_P)
    generalize p1.setWord (pteFrame (p1.mem d (v / 1024))) (v % 1024) (pa ||| perm ||| PTE_P) = p2 at hpte2 h2 ⊢
    have hmv : Mapped p2.mem d v := by
      rw [Mapped, hpte2 v hvv, if_pos rfl]
      exact hasP_entry pa perm
    have hkeep : ∀ u < VPAGES, Mapped p.mem d u → Mapped p2.mem d u := fun u hu hm => by
      by_cases huv : u = v
      · exact huv ▸ hmv
      · rwa [mapped_congr ((hpte2 u hu).trans ((if_neg huv).trans (hpte u hu)))]
    rcases Nat.eq_zero_or_pos n with rfl | hn
    · exact ⟨h2, hkeep, fun _ _ => hmv⟩
    · have hnext : u32 (v * PGSIZE + PGSIZE) = (v + 1) * PGSIZE := by
        simp only [u32, PGSIZE, VPAGES] at *
        omega
      rw [hnext]
      refine wp_mono (ih h2 (by omega) (by omega)) (fun r p3 h3 => ?_) fun _ he => he
      exact ⟨h3.1, fun u hu hm => h3.2.1 u hu (hkeep u hu hm), fun _ _ => h3.2.1 v hvv hmv⟩

/-- `mappages` of a user page in hand. -/
theorem mappages_built {perm : Nat} (h : Built p0 p d (f :: xs)) (hv : v < UPAGES ∨ v = UPAGES ∧ Mapped p.mem d v)
    (hperm : perm < PGSIZE) :
    wp (mappages d (v * PGSIZE) PGSIZE (f * PGSIZE) perm)
      (fun r p' => (∀ u < VPAGES, Mapped p.mem d u → Mapped p'.mem d u) ∧
        (r = -1 ∧ Built p0 p' d (f :: xs) ∨ r = 0 ∧ v < UPAGES ∧ Built p0 p' d xs)) (fun _ => True) p := by
  have hvv : v < VPAGES := hv.elim lt_VPAGES fun he => he.1 ▸ UPAGES_lt
  have heq := mappages_eq d (f * PGSIZE) perm Nat.one_pos (Nat.succ_le_of_lt hvv)
  rw [Nat.one_mul] at heq
  rw [heq]
  unfold mapLoop
  simp only [wp_bind]
  refine walkpgdir_built h hvv ⟨fun _ _ hm => hm, Or.inl ⟨rfl, h⟩⟩ fun p1 h1 hP hpte => ?_
  have hent : p1.mem (pteFrame (p1.mem d (v / 1024))) (v % 1024) = pte p1.mem d v := by rw [pte, if_pos hP]
  simp only [wp_bind, wp_get, wp_ite, wp_throw, wp_set, hent]
  refine ⟨fun _ => trivial, fun hno => ?_⟩
  have hvU : v < UPAGES := hv.resolve_right fun hm => hno ((mapped_congr (hpte v hvv)).mpr hm.2)
  obtain ⟨-, hpte2, -⟩ := h1.set_pte hvv hP (f * PGSIZE ||| perm ||| PTE_P)
  refine ⟨fun u hu hm => ?_, Or.inr ⟨rfl, hvU, h1.set_user hvU hP hno (hasP_entry _ _) (pteFrame_entry f hperm)⟩⟩
  have huv : u ≠ v := by
    rintro rfl
    exact hno ((mapped_congr (hpte u hu)).mpr hm)
  rwa [mapped_congr ((hpte2 u hu).trans ((if_neg huv).trans (hpte u hu)))]

/-- The loop of `deallocuvm` over the whole user part. -/
theorem deallocLoop_built {turns : Nat} (h : Built p0 p d xs) (hturns : UPAGES ≤ v + turns)
    (hgone : ∀ u < UPAGES, u < v → ¬ Mapped p.mem d u) :
    wp (deallocLoop L d KERNBASE turns (v * PGSIZE)) (fun _ p' => Built p0 p' d xs ∧ ∀ u < UPAGES, ¬ Mapped p'.mem d u)
      (fun _ => True) p := by
  have hK : pages KERNBASE = UPAGES := by decide
  induction turns generalizing v p with
  | zero => exact ⟨h, fun u hu => hgone u hu (by omega)⟩
  | succ turns ih =>
    unfold deallocLoop
    simp only [wp_ite, wp_bind, wp_pure, ← lt_pages_iff, hK]
    refine ⟨fun hv => ?_, fun hv => ⟨h, fun u hu => hgone u hu (by omega)⟩⟩
    have hvv : v < VPAGES := lt_VPAGES hv
    refine walkpgdir_read hvv (fun hP => ?_) fun hP => ?_
    · have heq : p.mem (pteFrame (p.mem d (v / 1024))) (v % 1024) = pte p.mem d v := by rw [pte, if_pos hP]
      simp only [wp_bind, wp_get, wp_ite, wp_throw, heq, u32_next hv]
      refine ⟨fun hm => ⟨fun _ => trivial, fun _ => kfree_list fun p1 hmem hl => ?_⟩, fun hm => ?_⟩
      · obtain ⟨h2, hpte⟩ := h.unmap hv hP hm hmem hl
        refine ih h2 (by omega) fun u hu huv hmu => ?_
        rw [Mapped, hpte u (lt_VPAGES hu)] at hmu
        split at hmu
        · exact absurd hmu (by decide)
        · exact hgone u hu (by omega) hmu
      · refine ih h (by omega) fun u hu huv hmu => ?_
        rcases Nat.lt_succ_iff_lt_or_eq.mp huv with hlt | rfl
        · exact hgone u hu hlt hmu
        · exact hm hmu
    · -- no page table: the pages up to the next directory entry are not mapped
      have hskip : u32 ((pdx (v * PGSIZE) + 1) * 2 ^ 22) = (v / 1024 + 1) * 1024 * PGSIZE := by
        rw [pdx_page hvv]
        simp only [u32, PGSIZE, UPAGES, KERNBASE] at *
        omega
      simp only [hskip]
      refine ih h (by omega) fun u hu huv hmu => ?_
      by_cases hlt : u < v
      · exact hgone u hu hlt hmu
      · rw [Mapped, pte, show u / 1024 = v / 1024 by omega, hP, if_neg Bool.false_ne_true] at hmu
        exact absurd hmu (by decide)

/-- The loop of `freevm` gives back the page tables that it comes to. -/
theorem freeTables_built {ks : List Nat} (hnd : p0.freelist.Nodup)
    (hpages : p0.freelist.Perm (d :: (ks.filterMap (fun k => entryPage (p.mem d k)) ++ p.freelist)))
    (hmem : ∀ f, f ∉ p0.freelist → p.mem f = p0.mem f) :
    wp (freeTables L d ks) (fun _ p' => p0.freelist.Perm (d :: p'.freelist) ∧ ∀ f, f ∉ p0.freelist → p'.mem f = p0.mem f)
      (fun _ => True) p := by
  induction ks generalizing p with
  | nil => exact ⟨hpages, hmem⟩
  | cons k ks ih =>
    unfold freeTables
    simp only [wp_bind, wp_get, wp_ite]
    refine ⟨fun hP => kfree_list fun p1 hmem1 hl => ?_, fun hP => ih ?_ hmem⟩
    · have hcons : (k :: ks).filterMap (fun k => entryPage (p.mem d k)) =
          pteFrame (p.mem d k) :: ks.filterMap fun k => entryPage (p.mem d k) := List.filterMap_cons_some (entryPage_pos hP)
      rw [hcons] at hpages
      have hne : d ≠ pteFrame (p.mem d k) := fun he => by
        have hall := hpages.nodup_iff.mp hnd
        rw [← he] at hall
        exact (List.nodup_cons.mp hall).1 List.mem_cons_self
      have hin : pteFrame (p.mem d k) ∈ p0.freelist := hpages.mem_iff.mpr (List.mem_cons_of_mem d List.mem_cons_self)
      refine ih ?_ fun f hf => ?_
      · rw [hmem1 d hne, hl]
        exact hpages.trans (List.Perm.cons d List.perm_middle.symm)
      · have hfk : f ≠ pteFrame (p.mem d k) := fun he => hf (he ▸ hin)
        rw [hmem1 f hfk, hmem f hf]
    · have hcons : (k :: ks).filterMap (fun k => entryPage (p.mem d k)) = ks.filterMap fun k => entryPage (p.mem d k) :=
        List.filterMap_cons_none (entryPage_neg hP)
      rwa [hcons] at hpages

/-- `freevm` of what has been built gives back all that was taken. -/
theorem freevm_built (h : Built p0 p d []) : wp (freevm L d) (fun _ p' => Restored p0 p') (fun _ => True) p := by
  have hdealloc : wp (deallocuvm L d KERNBASE 0) (fun _ p' => Built p0 p' d [] ∧ ∀ u < UPAGES, ¬ Mapped p'.mem d u)
      (fun _ => True) p := by
    unfold deallocuvm
    rw [pgRoundUp_eq (by decide)]
    simp only [wp_ite, wp_bind, wp_pure]
    refine ⟨fun hle => absurd hle (by decide), fun _ => ?_⟩
    exact deallocLoop_built h (by decide) fun u _ hu => absurd hu (by simp [pages, PGSIZE])
  have htab : ∀ m : Mem, tablePages m d = (List.range 1024).filterMap fun k => entryPage (m d k) := fun m => by
    unfold tablePages
    rfl
  unfold freevm
  generalize List.range 1024 = ks at htab ⊢
  refine wp_call hdealloc fun _ p1 h1 => ?_
  have hnone : userPages p1.mem d = [] := List.eq_nil_iff_forall_not_mem.mpr fun f hf => by
    obtain ⟨v, hv, hm, -⟩ := mem_userPages.mp hf
    exact h1.2 v hv hm
  have hpages := h1.1.pages
  rw [hnone, List.nil_append, List.nil_append, htab] at hpages
  refine wp_call (freeTables_built h.nodup hpages h1.1.mem) fun _ p2 h2 => kfree_list fun p3 hmem hl => ?_
  refine ⟨hl ▸ h2.1.symm, fun f hf => ?_⟩
  have hfd : f ≠ d := fun he => hf (he ▸ h2.1.mem_iff.mpr List.mem_cons_self)
  rw [hmem f hfd, h2.2 f hf]

/-- The loop of `setupkvm`. -/
theorem setupLoop_built {rs : List KRange} (h : Built p0 p d []) (hok : ∀ k ∈ rs, k.Ok) :
    wp (setupLoop L d (rs.map KRange.entry))
      (fun r p' => r = none ∧ Restored p0 p' ∨ r = some d ∧ Built p0 p' d [] ∧
        (∀ u < VPAGES, Mapped p.mem d u → Mapped p'.mem d u) ∧ ∀ k ∈ rs, Mapped p'.mem d k.page) (fun _ => True) p := by
  induction rs generalizing p with
  | nil => exact Or.inr ⟨rfl, h, fun _ _ hm => hm, fun _ hk => absurd hk List.not_mem_nil⟩
  | cons k rs ih =>
    have hk := hok k List.mem_cons_self
    have hlt : k.page < VPAGES := (Nat.lt_add_of_pos_right hk.pos).trans_le hk.page_le
    rw [List.map_cons, KRange.entry, setupLoop, hk.size, mappages_eq d _ _ hk.pos hk.page_le]
    refine wp_call (mapLoop_built k.perm h hk.kern hk.page_le) fun r p1 h1 => ?_
    obtain ⟨hb, hkeep, hfirst⟩ := h1
    rw [wp_ite]
    refine ⟨fun _ => wp_call (freevm_built hb) fun _ p2 h2 => Or.inl ⟨rfl, h2⟩, fun hr => ?_⟩
    refine wp_mono (ih hb fun j hj => hok j (List.mem_cons_of_mem k hj)) (fun r p2 h2 => ?_) fun _ he => he
    refine h2.imp_right ?_
    rintro ⟨hr2, hb2, hkeep2, hmaps⟩
    refine ⟨hr2, hb2, fun u hu hm => hkeep2 u hu (hkeep u hu hm), fun j hj => ?_⟩
    rcases List.mem_cons.mp hj with rfl | hj
    · exact hkeep2 _ hlt (hfirst hr hk.pos)
    · exact hmaps j hj

/-- `setupkvm` fails with the free list as it was, or has built a kernel part. -/
theorem setupkvm_built (hnd : p.freelist.Nodup) :
    wp (setupkvm L) (fun r p' => r = none ∧ Restored p p' ∨ ∃ d, r = some d ∧ Built p p' d [] ∧ Mapped p'.mem d UPAGES)
      (fun _ => True) p := by
  unfold setupkvm
  simp only [wp_bind]
  refine kalloc_list (fun _ => Or.inl ⟨rfl, List.Perm.refl _, fun _ _ => rfl⟩) fun d l hl => ?_
  simp only [wp_bind, wp_modify, wp_ite, wp_throw]
  refine ⟨fun _ => trivial, fun _ => ?_⟩
  have hz : ∀ k, (Phys.fill { p with freelist := l } d 0).mem d k = 0 := fun k => by rw [fill_mem_self]
  -- the zeroed page is a directory without page tables
  have htab : tablePages (Phys.fill { p with freelist := l } d 0).mem d = [] := List.eq_nil_iff_forall_not_mem.mpr fun t ht => by
    obtain ⟨k, -, hP, -⟩ := mem_tablePages.mp ht
    rw [hz] at hP
    exact absurd hP (by decide)
  have huser : userPages (Phys.fill { p with freelist := l } d 0).mem d = [] := List.eq_nil_iff_forall_not_mem.mpr fun t ht => by
    obtain ⟨v, -, hm, -⟩ := mem_userPages.mp ht
    rw [Mapped, pte, hz, if_neg (by decide)] at hm
    exact absurd hm (by decide)
  have hb : Built p (Phys.fill { p with freelist := l } d 0) d [] := by
    refine ⟨hnd, ?_, fun f hf => fill_mem_of_ne fun he => hf ?_⟩
    · rw [htab, huser, hl]
      exact List.Perm.refl _
    · rw [he, hl]
      exact List.mem_cons_self
  rw [kmap_eq]
  refine wp_mono (setupLoop_built hb (kernRanges_ok L)) (fun r p2 h2 => ?_) fun _ he => he
  refine h2.imp_right ?_
  rintro ⟨hr, hb2, -, hmaps⟩
  exact ⟨d, hr, hb2, hmaps _ List.mem_cons_self⟩

/-- The loop of `copyuvm`, whatever the page tables say that it copies from. -/
theorem copyLoop_built {src : Frame} {sz turns : Nat} (h : Built p0 p d []) (hv : v ≤ UPAGES) (hkern : Mapped p.mem d UPAGES) :
    wp (copyLoop L src d sz turns (v * PGSIZE)) (fun r p' => r = false → Built p0 p' d []) (fun _ => True) p := by
  induction turns generalizing v p with
  | zero => exact nofun
  | succ turns ih =>
    unfold copyLoop
    simp only [wp_ite, wp_pure]
    refine ⟨fun _ => ?_, fun _ => nofun⟩
    simp only [wp_bind]
    refine walkpgdir_read (hv.trans_lt UPAGES_lt) (fun _ => ?_) fun _ => trivial
    simp only [wp_bind, wp_get, wp_ite, wp_throw]
    refine ⟨fun _ => trivial, fun _ => kalloc_list (fun _ _ => h) fun f l hl => ?_⟩
    simp only [wp_bind, wp_modify]
    generalize p.mem (pteFrame (p.mem src (v / 1024))) (v % 1024) = w
    obtain ⟨h1, hpte⟩ := (h.alloc hl).write List.mem_cons_self (p.mem (pteFrame w))
    have hkern1 := (mapped_congr (hpte UPAGES UPAGES_lt)).mpr hkern
    have hv1 : v < UPAGES ∨ v = UPAGES ∧ Mapped (Phys.setPage { p with freelist := l } f (p.mem (pteFrame w))).mem d v :=
      (Nat.lt_or_eq_of_le hv).imp_right fun he => ⟨he, he ▸ hkern1⟩
    refine wp_mono (mappages_built h1 hv1 (Nat.mod_lt w (by decide))) (fun r p2 h2 => ?_) fun _ he => he
    obtain ⟨hkeep, ⟨rfl, hb⟩ | ⟨rfl, hlt, hb⟩⟩ := h2
    · rw [if_pos (by decide)]
      simp only [wp_bind]
      exact kfree_list fun p3 hmem hl3 _ => hb.free hmem hl3
    · rw [if_neg (by decide), u32_next hlt]
      exact ih hb hlt (hkeep UPAGES UPAGES_lt hkern1)

/-- A `copyuvm` that fails leaves the free list as it found it. -/
theorem copyuvm_restored {src : Frame} {sz : Nat} (hnd : p.freelist.Nodup) :
    wp (copyuvm L src sz) (fun r p' => r = none → Restored p p') (fun _ => True) p := by
  unfold copyuvm
  refine wp_call (setupkvm_built hnd) fun r p1 h1 => ?_
  rcases h1 with ⟨rfl, h1⟩ | ⟨d, rfl, hb, hkern⟩
  · exact fun _ => h1
  · have hcopy : wp (copyLoop L src d sz ((sz + PGSIZE - 1) / PGSIZE) (0 * PGSIZE)) _ _ p1 :=
      copyLoop_built hb (Nat.zero_le _) hkern
    rw [Nat.zero_mul] at hcopy
    refine wp_call hcopy fun r p2 h2 => ?_
    cases r with
    | true => exact nofun
    | false => exact wp_call (freevm_built (h2 rfl)) fun _ p3 h3 _ => h3

end

end OsLab
