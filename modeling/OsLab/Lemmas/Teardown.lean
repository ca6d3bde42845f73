import OsLab.Lemmas.MemCalls
import OsLab.WaitxMem

/-!
# What a teardown writes

`freevm` of an address space that is in order returns, and changes no page but those it frees (`freevm_frame`). No owners are needed:
a user page may be mapped more than once, or by others as well.
-/

namespace OsLab

open Cmd

variable {L : Layout} {p0 p p' : Phys} {m m' : Mem} {d f k : Frame} {E : Panic → Prop}

/-! ## Trees -/

theorem InTree.self : InTree m d d := Or.inl rfl

theorem inTree_table {k : Nat} (hk : k < 1024) (hP : hasP (m d k) = true) : InTree m d (pteFrame (m d k)) := Or.inr ⟨k, hk, hP, rfl⟩

/-- The tree is what the directory says. -/
theorem inTree_congr (h : m' d = m d) : InTree m' d f ↔ InTree m d f := by
  unfold InTree
  rw [h]

/-- The entry of an address, by its page number. -/
theorem pte_of_addr {va : Nat} (hva : va < 2 ^ 32) (hP : hasP (m d (pdx va)) = true) :
    m (pteFrame (m d (pdx va))) (ptx va) = pte m d (va / PGSIZE) := by
  have hdx : pdx va = va / PGSIZE / 1024 := by
    simp only [pdx, PGSIZE]
    omega
  rw [hdx] at hP ⊢
  rw [pte, if_pos hP]
  rfl

/-- Where the tree is as it was, so are the entries. -/
theorem pte_of_tree (h : ∀ f, InTree m d f → m' f = m f) {v : Nat} (hv : v < VPAGES) : pte m' d v = pte m d v := by
  unfold pte
  rw [h d InTree.self]
  by_cases hP : hasP (m d (v / 1024)) = true
  · rw [if_pos hP, if_pos hP, h _ (inTree_table (lt_dirs hv) hP)]
  · rw [if_neg hP, if_neg hP]

/-- Where the tree is as it was, the address space can still be torn down. -/
theorem TreeOk.congr (h : TreeOk L m d) (hm : ∀ f, InTree m d f → m' f = m f) : TreeOk L m' d := by
  have hd : m' d = m d := hm d InTree.self
  refine ⟨fun f hf => h.tree f ((inTree_congr hd).mp hf), fun k hk hP => ?_, fun v hv hmap => ?_⟩
  · rw [hd] at hP ⊢
    exact h.dir k hk hP
  · have he := pte_of_tree hm (lt_VPAGES hv)
    rw [mapped_congr he] at hmap
    rw [frameAt_congr he, inTree_congr hd]
    exact h.user v hv hmap

/-! ## Freeing -/

/-- `kfree` of a page of the allocator's. -/
theorem kfree_managed {Q : Unit → Phys → Prop} (hf : Managed L f)
    (hQ : ∀ p', (∀ g, g ≠ f → p'.mem g = p.mem g) → p'.freelist = f :: p.freelist → Q () p') : wp (kfree L f) Q E p := by
  unfold kfree
  simp only [wp_bind, wp_get, wp_ite, wp_throw, wp_set]
  refine ⟨fun hbad => (hbad.elim hf.1.not_gt hf.2.not_ge).elim, fun _ => hQ _ (fun g hg => ?_) rfl⟩
  exact (setWord_mem_of_ne hg).trans (fill_mem_of_ne hg)

/-- A teardown of `d` on its way: the directory is as it was, entries of the page tables have been cleared, and the other pages that have
changed are free. -/
structure Emptying (d : Frame) (p0 p : Phys) : Prop where
  dir : p.mem d = p0.mem d
  table : ∀ k < 1024, hasP (p0.mem d k) = true → ∀ i, p.mem (pteFrame (p0.mem d k)) i = p0.mem (pteFrame (p0.mem d k)) i ∨
    p.mem (pteFrame (p0.mem d k)) i = 0
  rest : ∀ f, InTree p0.mem d f ∨ p.mem f = p0.mem f ∨ f ∈ p.freelist

theorem Emptying.refl : Emptying d p p := ⟨rfl, fun _ _ _ _ => Or.inl rfl, fun _ => Or.inr (Or.inl rfl)⟩

/-- A user page has been freed. -/
theorem Emptying.freed (h : Emptying d p0 p) (hf : ¬ InTree p0.mem d f) (hmem : ∀ g, g ≠ f → p'.mem g = p.mem g)
    (hl : p'.freelist = f :: p.freelist) : Emptying d p0 p' := by
  have htree : ∀ g, InTree p0.mem d g → p'.mem g = p.mem g := fun g hg => hmem g fun he => hf (he ▸ hg)
  refine ⟨(htree d InTree.self).trans h.dir, fun k hk hP i => ?_, fun g => ?_⟩
  · rw [htree _ (inTree_table hk hP)]
    exact h.table k hk hP i
  · rw [hl]
    by_cases hg : g = f
    · exact Or.inr (Or.inr (hg ▸ List.mem_cons_self))
    · rw [hmem g hg]
      exact (h.rest g).imp_right (Or.imp_right (List.mem_cons_of_mem f))

/-- An entry of a page table has been cleared. -/
theorem Emptying.cleared (h : Emptying d p0 p) (hT : TreeOk L p0.mem d) {k i : Nat} (hk : k < 1024) (hP : hasP (p0.mem d k) = true) :
    Emptying d p0 (p.setWord (pteFrame (p0.mem d k)) i 0) := by
  refine ⟨(setWord_mem_of_ne (hT.dir k hk hP).symm).trans h.dir, fun j hj hPj n => ?_, fun g => ?_⟩
  · by_cases he : pteFrame (p0.mem d j) = pteFrame (p0.mem d k)
    · have hold := h.table j hj hPj n
      rw [he] at hold ⊢
      rw [setWord_mem_self]
      by_cases hn : n = i
      · exact Or.inr (by rw [hn, Function.update_self])
      · rwa [Function.update_of_ne hn]
    · rw [setWord_mem_of_ne he]
      exact h.table j hj hPj n
  · by_cases hg : g = pteFrame (p0.mem d k)
    · exact Or.inl (hg ▸ inTree_table hk hP)
    · rw [setWord_mem_of_ne hg]
      exact h.rest g

/-- Nothing outside of the tree is written. -/
theorem deallocLoop_frame {oldsz turns a : Nat} (hT : TreeOk L p0.mem d) (hold : oldsz ≤ KERNBASE) (h : Emptying d p0 p) :
    wp (deallocLoop L d oldsz turns a) (fun _ p' => Emptying d p0 p') E p := by
  induction turns generalizing a p with
  | zero => exact h
  | succ turns ih =>
    unfold deallocLoop walkpgdir
    simp only [wp_ite, wp_bind, wp_pure, wp_get, h.dir]
    refine ⟨fun ha => ⟨fun hP => ?_, fun _ => ⟨fun hf => absurd hf (by decide), fun _ => ih h⟩⟩, fun _ => h⟩
    simp only [wp_throw]
    refine ⟨fun hp => ?_, fun _ => ih h⟩
    have hva : a < 2 ^ 32 := by
      simp only [KERNBASE] at hold
      omega
    have hv : a / PGSIZE < UPAGES := by
      simp only [UPAGES, KERNBASE, PGSIZE] at *
      omega
    have hk : pdx a < 1024 := Nat.mod_lt _ (by decide)
    -- an entry that is present is one that was there at the start
    have hsame : p.mem (pteFrame (p0.mem d (pdx a))) (ptx a) = pte p0.mem d (a / PGSIZE) := by
      rcases h.table _ hk hP (ptx a) with he | he
      · rw [he, pte_of_addr hva hP]
      · rw [he] at hp
        exact absurd hp (by decide)
    rw [hsame] at hp ⊢
    obtain ⟨hman, hout⟩ := hT.user _ hv hp
    have hpos : 0 < L.endFrame := (Nat.zero_le _).trans_lt (L.text_lt.trans_le L.data_le)
    refine ⟨fun hz => ?_, fun _ => kfree_managed hman fun p1 hmem hl => ih ((h.freed hout hmem hl).cleared hT hk hP)⟩
    have hle : L.endFrame ≤ 0 := hz ▸ hman.1
    omega

/-- What is freed by the loop over the directory: the page tables of the entries it has come to. -/
theorem freeTables_frame {ks : List Nat} (hT : TreeOk L p0.mem d) (hks : ∀ k ∈ ks, k < 1024) (hd : p.mem d = p0.mem d)
    (h : ∀ f, f = d ∨ (∃ k ∈ ks, hasP (p0.mem d k) = true ∧ pteFrame (p0.mem d k) = f) ∨ p.mem f = p0.mem f ∨ f ∈ p.freelist) :
    wp (freeTables L d ks) (fun _ p' => ∀ f, f = d ∨ p'.mem f = p0.mem f ∨ f ∈ p'.freelist) E p := by
  induction ks generalizing p with
  | nil =>
    intro f
    rcases h f with hf | ⟨k, hk, -⟩ | hf
    · exact Or.inl hf
    · cases hk
    · exact Or.inr hf
  | cons k ks ih =>
    have hk : k < 1024 := hks k List.mem_cons_self
    have hks : ∀ j ∈ ks, j < 1024 := fun j hj => hks j (List.mem_cons_of_mem k hj)
    unfold freeTables
    simp only [wp_bind, wp_get, wp_ite, hd]
    refine ⟨fun hP => kfree_managed (hT.tree _ (inTree_table hk hP)) fun p1 hmem hl => ?_, fun hP => ih hks hd fun f => ?_⟩
    · refine ih hks ((hmem d (hT.dir k hk hP).symm).trans hd) fun f => ?_
      rw [hl]
      by_cases hf : f = pteFrame (p0.mem d k)
      · exact Or.inr (Or.inr (Or.inr (hf ▸ List.mem_cons_self)))
      · rw [hmem f hf]
        rcases h f with h1 | ⟨j, hj, hPj, hfj⟩ | h1 | h1
        · exact Or.inl h1
        · rcases List.mem_cons.mp hj with rfl | hj
          · exact absurd hfj.symm hf
          · exact Or.inr (Or.inl ⟨j, hj, hPj, hfj⟩)
        · exact Or.inr (Or.inr (Or.inl h1))
        · exact Or.inr (Or.inr (Or.inr (List.mem_cons_of_mem _ h1)))
    · rcases h f with h1 | ⟨j, hj, hPj, hfj⟩ | h1
      · exact Or.inl h1
      · rcases List.mem_cons.mp hj with rfl | hj
        · exact absurd hPj hP
        · exact Or.inr (Or.inl ⟨j, hj, hPj, hfj⟩)
      · exact Or.inr (Or.inr h1)

/-- `freevm` returns, also when the teardown is on its way already, and a page that has changed since it began is free. -/
theorem freevm_frame (hT : TreeOk L p0.mem d) (h : Emptying d p0 p) :
    wp (freevm L d) (fun _ p' => ∀ f, p'.mem f = p0.mem f ∨ f ∈ p'.freelist) E p := by
  have hlt : ∀ k ∈ List.range 1024, k < 1024 := fun k hk => List.mem_range.mp hk
  have hmem : ∀ k < 1024, k ∈ List.range 1024 := fun k hk => List.mem_range.mpr hk
  have hdealloc : wp (deallocuvm L d KERNBASE 0) (fun _ p' => Emptying d p0 p') E p := by
    unfold deallocuvm
    simp only [wp_ite, wp_bind, wp_pure]
    exact ⟨fun _ => h, fun _ => deallocLoop_frame hT le_rfl h⟩
  unfold freevm
  generalize List.range 1024 = ks at hlt hmem ⊢
  refine wp_call hdealloc fun _ p1 h1 => ?_
  refine wp_call (freeTables_frame hT hlt h1.dir fun f => ?_) fun _ p2 h2 => ?_
  · rcases h1.rest f with (hf | ⟨k, hk, hP, hf⟩) | hf
    · exact Or.inl hf
    · exact Or.inr (Or.inl ⟨k, hmem k hk, hP, hf⟩)
    · exact Or.inr (Or.inr hf)
  · refine kfree_managed (hT.tree d InTree.self) fun p3 hmem hl f => ?_
    rw [hl]
    by_cases hf : f = d
    · exact Or.inr (hf ▸ List.mem_cons_self)
    · rw [hmem f hf]
      exact ((h2 f).resolve_left hf).imp_right (List.mem_cons_of_mem d)

/-- The pages of a reaped child are freed, and no other page changes. -/
theorem reapPages_frame {s : Kern} {r : Reaped} {k e : Frame} (hstack : r.kstack = some k) (hdir : r.pgdir = some e) (hk : Managed L k)
    (hout : ¬ InTree s.phys.mem e k) (hT : TreeOk L s.phys.mem e) :
    wp (reapPages L r) (fun v s' => v = r.ret ∧ s'.table = r.table ∧ s'.regions = s.regions ∧ s'.shmPages = s.shmPages ∧
      ∀ f, s'.phys.mem f = s.phys.mem f ∨ f ∈ s'.phys.freelist) E s := by
  unfold reapPages
  simp only [hstack, hdir, wp_bind, wp_useFrame_some, wp_onPhys, wp_onTable, wp_pure]
  refine kfree_managed hk fun p1 hmem hl => ?_
  refine wp_mono (freevm_frame hT (Emptying.refl.freed hout hmem hl)) (fun _ p2 h2 => ?_) fun _ he => he
  exact ⟨trivial, trivial, trivial, trivial, h2⟩

/-! ## Where the owners fit -/

section

variable {strict : Bool} {lim : Nat} {own : Own} {sh : Slot → Share} {q : Share} {s : Kern} {n : Nat} {i cur : Slot}

theorem Tables.treeOf (h : Tables own m d) (hf : InTree m d f) : (own f).TreeOf d := by
  rcases hf with rfl | ⟨k, hk, hP, rfl⟩
  · exact h.treeOf_dir
  · exact h.treeOf_table hk hP

/-- A user page is in no tree. -/
theorem Space.not_inTree {e : Frame} (h : Space strict q own m d n) (he : Tables own m e) {v : Nat} (hv : v < UPAGES)
    (hm : Mapped m d v) : ¬ InTree m e (frameAt m d v) := by
  intro hin
  have htree := he.treeOf hin
  rw [(h.page v hv hm).2] at htree
  unfold Share.owner at htree
  split at htree <;> exact htree

theorem Owner.TreeOf.ne_outside (h : (own f).TreeOf d) : own f ≠ .outside := by
  intro ho
  rw [ho] at h
  exact h

/-- An address space whose pages have owners can be torn down. -/
theorem Space.treeOk {p : Phys} (hp : PhysOk L own p) (h : Space strict q own p.mem d n) : TreeOk L p.mem d where
  tree f hf := hp.range f (h.treeOf hf).ne_outside
  dir k hk hP he := by
    have ho := h.table k hk hP
    rw [he, h.dir] at ho
    cases ho
  user v hv hm := by
    refine ⟨hp.range _ fun ho => ?_, h.not_inTree h.toTables hv hm⟩
    rw [(h.page v hv hm).2] at ho
    unfold Share.owner at ho
    split at ho <;> cases ho

/-- Where the owners fit, any process can reap. -/
theorem KernOk.reapable (h : KernOk L strict lim own sh s) (hused : (s.table.proc cur).state ≠ .unused) : Reapable L s cur := by
  obtain ⟨d, k, hlive⟩ := h.lives cur hused
  refine ⟨⟨d, hlive.pgdir, fun v hv hm => hlive.space.not_inTree hlive.space.toTables hv hm⟩, fun i hz => ?_,
    fun i d' e hz hd he v hv hm => ?_⟩
  · obtain ⟨e, k', hchild⟩ := h.lives i (by rw [hz]; exact nofun)
    refine ⟨k', e, hchild.kstack, hchild.pgdir, h.phys.range _ (by rw [hchild.stack]; exact nofun), fun hin => ?_,
      hchild.space.treeOk h.phys⟩
    have htree := hchild.space.treeOf hin
    rw [hchild.stack] at htree
    exact htree
  · obtain ⟨e', k', hchild⟩ := h.lives i (by rw [hz]; exact nofun)
    obtain rfl : e' = e := hchild.pgdir_eq he
    obtain rfl : d = d' := hlive.pgdir_eq hd
    exact hlive.space.not_inTree hchild.space.toTables hv hm

end

end OsLab
