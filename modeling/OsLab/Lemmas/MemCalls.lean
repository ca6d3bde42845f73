import OsLab.Lemmas.Exec
import OsLab.Lemmas.Life
import Mathlib.Algebra.Order.BigOperators.Group.Finset

/-!
# What the memory calls do

Every call keeps the owners in step with the kernel state (`KernOk`). A call changes the address space of one process, or
makes or removes one, and leaves the others (`KernOk.change`).
-/

namespace OsLab

open Function (update update_self update_of_ne)
open Cmd
open LifeAux

variable {L : Layout} {strict : Bool} {lim : Nat} {own own' own'' : Own} {sh : Slot → Share} {q : Share} {s s' : Kern}
  {d f k : Frame} {E : Panic → Prop} {cur i : Slot} {D : Frame → Prop} {p' p1 : Phys} {a : Arg} {id : Fin NSHM} {t : Table}

/-! ## Functions on a part of the kernel -/

@[simp] theorem wp_onPhys {α : Type} {x : PhysM α} {Q : α → Kern → Prop} :
    wp (onPhys x) Q E s ↔ wp x (fun a p => Q a { s with phys := p }) E s.phys := wp_zoom

@[simp] theorem wp_onTable {g : Table → Table} {Q : Unit → Kern → Prop} :
    wp (onTable g) Q E s ↔ Q () { s with table := g s.table } := Iff.rfl

@[simp] theorem wp_useFrame_some {Q : Frame → Kern → Prop} : wp (useFrame (some f)) Q E s ↔ Q f s := Iff.rfl

/-! ## One process at a time -/

/-- A function that touches other address spaces leaves the process. -/
theorem Lives.local {m m' : Mem} {p : Proc} (h : Lives strict lim own q m i p d k) (hl : Local D own own' m m') (hd : ¬ D d) :
    Lives strict lim own' q m' i p d k where
  pgdir := h.pgdir
  kstack := h.kstack
  stack := by rw [hl.keep k (by rw [h.stack]; exact not_false), h.stack]
  size := h.size
  space := h.space.local hl hd

/-- The sum over the processes, when one of them changes. -/
theorem sum_count_update (sh : Slot → Share) (i : Slot) (q : Share) (r : Fin NSHM) :
    (∑ j, (update sh i q j).count r) + (sh i).count r = (∑ j, (sh j).count r) + q.count r := by
  have hup : (fun j => (update sh i q j).count r) = update (fun j => (sh j).count r) i (q.count r) := by
    funext j
    by_cases hj : j = i
    · subst hj
      simp
    · simp [hj]
  rw [hup, Finset.sum_update_of_mem (Finset.mem_univ i),
    ← Finset.add_sum_erase Finset.univ (fun j => (sh j).count r) (Finset.mem_univ i), Finset.sdiff_singleton_eq_erase]
  omega

/-- The call has changed the slot `i`, where the regions show as in `q` now, and address spaces that no other process has. -/
theorem KernOk.change (h : KernOk L strict lim own sh s) (i : Slot) (hp : PhysOk L own' s'.phys)
    (hl : Local D own own' s.phys.mem s'.phys.mem)
    (hD : ∀ j d, j ≠ i → (s.table.proc j).state ≠ .unused → (s.table.proc j).pgdir = some d → ¬ D d)
    (htab : ∀ j, j ≠ i → s'.table.proc j = s.table.proc j) (hreg : ∀ r, (s'.regions r).page = (s.regions r).page)
    (hshm : s'.shmPages = s.shmPages)
    (hi : (s'.table.proc i).state ≠ .unused → ∃ d k, Lives strict lim own' q s'.phys.mem i (s'.table.proc i) d k ∧
      ∀ j, j ≠ i → (s.table.proc j).state ≠ .unused → (s.table.proc j).pgdir ≠ some d)
    (hidle : (s'.table.proc i).state = .unused → q = noShare)
    (hcnt : ∀ r, (s'.regions r).refcnt + (sh i).count r = (s.regions r).refcnt + q.count r) :
    KernOk L strict lim own' (update sh i q) s' where
  phys := hp
  lives j hj := by
    by_cases hji : j = i
    · subst hji
      obtain ⟨d, k, hlive, -⟩ := hi hj
      rw [update_self]
      exact ⟨d, k, hlive⟩
    · rw [update_of_ne hji]
      rw [htab j hji] at hj ⊢
      obtain ⟨d, k, hlive⟩ := h.lives j hj
      exact ⟨d, k, hlive.local hl (hD j d hji hj hlive.pgdir)⟩
  idle j hj := by
    by_cases hji : j = i
    · subst hji
      rw [update_self, hidle hj]
    · rw [update_of_ne hji]
      rw [htab j hji] at hj
      exact h.idle j hj
  apart j j' hj hj' heq := by
    by_cases hji : j = i <;> by_cases hji' : j' = i
    · rw [hji, hji']
    · subst hji
      obtain ⟨d, k, hlive, hne⟩ := hi hj
      rw [htab j' hji'] at hj' heq
      exact absurd (heq ▸ hlive.pgdir) (hne j' hji' hj')
    · subst hji'
      obtain ⟨d, k, hlive, hne⟩ := hi hj'
      rw [htab j hji] at hj heq
      exact absurd (heq ▸ hlive.pgdir) (hne j hji hj)
    · rw [htab j hji] at hj heq
      rw [htab j' hji'] at hj' heq
      exact h.apart j j' hj hj' heq
  regions r f := by
    rw [hreg, ← h.regions]
    constructor
    · intro hf
      by_cases hw : (own f).Within D
      · have := hl.stay f hw
        rw [hf] at this
        exact this.elim
      · rw [← hl.keep f hw, hf]
    · intro hf
      rw [hl.keep f (by rw [hf]; exact not_false), hf]
  keys k f hk := by
    rw [hshm] at hk
    obtain ⟨hf, hz⟩ := h.keys k f hk
    have hout : ¬ (own f).Within D := by rw [hf]; exact not_false
    exact ⟨by rw [hl.keep f hout, hf], by rw [hl.mem f hout (by rw [hf]; trivial), hz]⟩
  counts r := by
    have h1 := hcnt r
    have h2 := sum_count_update sh i q r
    rw [h.counts r] at h1
    omega

/-- The same when the regions show where they did. -/
theorem KernOk.keep (h : KernOk L strict lim own sh s) (i : Slot) (hp : PhysOk L own' s'.phys)
    (hl : Local D own own' s.phys.mem s'.phys.mem)
    (hD : ∀ j d, j ≠ i → (s.table.proc j).state ≠ .unused → (s.table.proc j).pgdir = some d → ¬ D d)
    (htab : ∀ j, j ≠ i → s'.table.proc j = s.table.proc j) (hreg : s'.regions = s.regions) (hshm : s'.shmPages = s.shmPages)
    (hi : (s'.table.proc i).state ≠ .unused → ∃ d k, Lives strict lim own' (sh i) s'.phys.mem i (s'.table.proc i) d k ∧
      ∀ j, j ≠ i → (s.table.proc j).state ≠ .unused → (s.table.proc j).pgdir ≠ some d)
    (hidle : (s'.table.proc i).state = .unused → sh i = noShare) : KernOk L strict lim own' sh s' := by
  have hk := h.change i hp hl hD htab (fun r => by rw [hreg]) hshm hi hidle fun r => by rw [hreg]
  rwa [Function.update_eq_self] at hk

/-- A page that nobody leads to passes to another owner. -/
theorem KernOk.relabel {o : Owner} (h : KernOk L strict lim own sh s) (hp : PhysOk L (update own f o) s.phys)
    (hf : ∀ e, ¬ (own f).UsedBy e) (hstack : ∀ i, (s.table.proc i).state ≠ .unused → own f ≠ .stack i)
    (hkey : ∀ k, own f ≠ .shm k) (ho : ∀ r, o ≠ .region r) : KernOk L strict lim (update own f o) sh s where
  phys := hp
  lives i hi := by
    obtain ⟨d, k, hlive⟩ := h.lives i hi
    have hne : k ≠ f := fun he => hstack i hi (he ▸ hlive.stack)
    exact ⟨d, k, hlive.pgdir, hlive.kstack, by rw [update_of_ne hne, hlive.stack], hlive.size,
      hlive.space.relabel (hf d)⟩
  idle := h.idle
  apart := h.apart
  regions r g := by
    by_cases hg : g = f
    · subst hg
      rw [update_self, ← h.regions]
      exact ⟨fun he => absurd he (ho r), fun he => absurd (by rw [he]; trivial) (hf 0)⟩
    · rw [update_of_ne hg, h.regions]
  keys k g hk := by
    obtain ⟨hg, hz⟩ := h.keys k g hk
    have hne : g ≠ f := fun he => hkey k (he ▸ hg)
    exact ⟨by rw [update_of_ne hne, hg], hz⟩
  counts := h.counts

/-! ## Growing and shrinking -/

/-- The loads of `switchuvm` only check. -/
theorem switchuvm_wp {Q : Unit → Kern → Prop} (hk : (s.table.proc cur).kstack = some k)
    (hd : (s.table.proc cur).pgdir = some d) (hQ : Q () s) : wp (switchuvm cur) Q E s := by
  unfold switchuvm
  simp only [wp_bind, wp_get, wp_ite, wp_throw, wp_pure, hk, hd]
  exact ⟨(fun he => by cases he), fun _ => ⟨(fun he => by cases he), fun _ => hQ⟩⟩

theorem setSize_wp {Q : Int → Kern → Prop} {sz : Nat} (hk : (s.table.proc cur).kstack = some k)
    (hd : (s.table.proc cur).pgdir = some d)
    (hQ : Q 0 { s with table := s.table.modify cur fun p => { p with sz := sz } }) : wp (setSize cur sz) Q E s := by
  unfold setSize
  simp only [wp_bind, wp_onTable]
  exact switchuvm_wp (by simpa using hk) (by simpa using hd) hQ

/-- `growproc` by a positive amount: nothing has changed but page tables, because memory was short or the size too large, or the
process has grown to `z` bytes, and the user may use what is new. -/
theorem growproc_grow {n : Int} (hp : PhysOk L own s.phys) (hlive : Lives strict lim own q s.phys.mem cur (s.table.proc cur) d k)
    (hlim : lim ≤ KERNBASE) (hn : 0 < n) :
    wp (growproc L cur n) (fun r s' => ∃ own' p', PhysOk L own' p' ∧ Local (· = d) own own' s.phys.mem p'.mem ∧
      (∀ u < pages (s.table.proc cur).sz, pte p'.mem d u = pte s.phys.mem d u) ∧
      (r = -1 ∧ s' = { s with phys := p' } ∧ Space strict q own' p'.mem d (pages (s.table.proc cur).sz) ∧
          (0 < uintOf ((s.table.proc cur).sz + n) → uintOf ((s.table.proc cur).sz + n) < KERNBASE →
            Short s.phys d (pages (s.table.proc cur).sz) (pages (uintOf ((s.table.proc cur).sz + n)))) ∨
        r = 0 ∧ ∃ z, (s.table.proc cur).sz ≤ z ∧ uintOf ((s.table.proc cur).sz + n) ≤ z ∧
          (z = uintOf ((s.table.proc cur).sz + n) ∧ z < KERNBASE ∨ z = (s.table.proc cur).sz) ∧
          Space strict q own' p'.mem d (pages z) ∧ (∀ v, pages (s.table.proc cur).sz ≤ v → v < pages z → UserMapped p'.mem d v) ∧
          (pages (s.table.proc cur).sz < pages z → 1 + lacks s.phys.mem d (pages (s.table.proc cur).sz) ≤ s.phys.freelist.length) ∧
          p'.freelist.length + (pages z - pages (s.table.proc cur).sz) + absent s.phys.mem d =
            s.phys.freelist.length + absent p'.mem d ∧
          s' = { s with phys := p', table := s.table.modify cur fun q => { q with sz := z } })) E s := by
  unfold growproc
  simp only [wp_bind, wp_get]
  rw [if_pos hn]
  simp only [wp_bind, hlive.pgdir, wp_useFrame_some, wp_onPhys]
  refine wp_mono (allocuvm_wp hp hlive.space (hlive.size.trans hlim)) (fun r p1 h1 => ?_) fun _ he => he
  obtain ⟨own1, hp1, hl1, hkeep, h1⟩ := h1
  simp only [wp_ite, wp_pure]
  refine ⟨fun hr => ⟨own1, p1, hp1, hl1, hkeep, Or.inl ?_⟩, fun hr => ?_⟩
  · rcases h1 with ⟨-, hs1, hshort⟩ | ⟨hle, hle', -, hs1, -⟩
    · exact ⟨trivial, rfl, hs1, fun _ => hshort⟩
    · refine ⟨trivial, rfl, ?_, fun hpos => by omega⟩
      rwa [show (s.table.proc cur).sz = r by omega]
  · obtain ⟨h0, -⟩ | ⟨h1, h2, h3, h4, h5, h6, h7⟩ := h1
    · exact absurd h0 hr
    · exact setSize_wp hlive.kstack hlive.pgdir ⟨own1, p1, hp1, hl1, hkeep, Or.inr ⟨rfl, r, h1, h2, h3, h4, h5, h6, h7, rfl⟩⟩

/-- `growproc` by a negative amount, to a smaller size: the pages are gone, and the size is set unless it is zero. -/
theorem growproc_shrink {n : Int} {newsz : Nat} (hp : PhysOk L own s.phys)
    (hlive : Lives strict lim own q s.phys.mem cur (s.table.proc cur) d k) (hlim : lim ≤ KERNBASE) (hn : n < 0)
    (hnew : newsz = uintOf ((s.table.proc cur).sz + n)) (hlt : newsz < (s.table.proc cur).sz)
    (hpriv : Private own s.phys.mem d (pages newsz) (pages (s.table.proc cur).sz)) :
    wp (growproc L cur n) (fun r s' => ∃ own' p',
      Unmapped L d (pages newsz) (pages (s.table.proc cur).sz) own own' s.phys p' ∧
      (newsz = 0 ∧ r = -1 ∧ s' = { s with phys := p' } ∨
        newsz ≠ 0 ∧ s' = { s with phys := p', table := s.table.modify cur fun q => { q with sz := newsz } })) E s := by
  unfold growproc
  simp only [wp_bind, wp_get]
  rw [if_neg (by omega), if_pos hn]
  simp only [wp_bind, hlive.pgdir, wp_useFrame_some, wp_onPhys, ← hnew]
  refine wp_mono (deallocuvm_wp hp hlive.space.toTables (hlive.size.trans hlim) hlt hpriv) (fun r p1 h1 => ?_)
    fun _ he => he
  obtain ⟨rfl, own1, h1⟩ := h1
  simp only [wp_ite, wp_pure]
  exact ⟨fun hr => ⟨own1, p1, h1, Or.inl ⟨hr, trivial, rfl⟩⟩,
    fun hr => setSize_wp hlive.kstack hlive.pgdir ⟨own1, p1, h1, Or.inr ⟨hr, rfl⟩⟩⟩

/-- Pages have been unmapped, and the size has stayed. -/
theorem Space.unmapped {p : Phys} {lo hi n : Nat} (h : Space false q own p.mem d n) (hu : Unmapped L d lo hi own own' p p') (hlo : lo ≤ n)
    (hhi : n ≤ hi) (hU : hi ≤ UPAGES) : Space false q own' p'.mem d n := by
  have hs := h.shrink hu hlo hhi hU
  refine ⟨hs.toTables, h.le, fun v hv hm => ?_, hs.shows, fun v hv => ?_, nofun, hs.kern, hs.dev, hs.guarded⟩
  · exact ⟨(hs.page v hv hm).1.trans_le hlo, (hs.page v hv hm).2⟩
  · rw [hu.dirs]
    exact h.reach v hv

/-- The process `cur` has another size and address space under the same directory. -/
theorem KernOk.resize {z : Nat} (h : KernOk L strict lim own sh s)
    (hlive : Lives strict lim own (sh cur) s.phys.mem cur (s.table.proc cur) d k) (hused : (s.table.proc cur).state ≠ .unused)
    (hp : PhysOk L own' p') (hl : Local (· = d) own own' s.phys.mem p'.mem) (hz : z ≤ lim)
    (hs : Space strict (sh cur) own' p'.mem d (pages z)) :
    KernOk L strict lim own' sh { s with phys := p', table := s.table.modify cur fun q => { q with sz := z } } := by
  have hapart : ∀ j, j ≠ cur → (s.table.proc j).state ≠ .unused → (s.table.proc j).pgdir ≠ some d := fun j hj hu he =>
    hj (h.apart j cur hu hused (he.trans hlive.pgdir.symm))
  refine h.keep cur hp hl (fun j e hj hu he hd => hapart j hj hu (hd ▸ he)) (fun j hj => ?_) rfl rfl (fun _ => ?_)
    fun hno => absurd hno (by simpa using hused)
  · dsimp only
    rw [modify_proc_of_ne _ _ hj]
  · refine ⟨d, k, ⟨?_, ?_, ?_, ?_, ?_⟩, hapart⟩
    · simpa using hlive.pgdir
    · simpa using hlive.kstack
    · rw [hl.keep k (by rw [hlive.stack]; exact not_false), hlive.stack]
    · simpa using hz
    · simpa using hs

/-- A size set to what it is. -/
theorem modify_sz_self (t : Table) (i : Slot) : (t.modify i fun q => { q with sz := (t.proc i).sz }) = t := by
  simp [Table.modify]

/-- Growing or shrinking keeps memory in order, as long as no shared page is given up. -/
theorem growproc_wp {n : Int} (h : KernOk L strict lim own sh s) (hlim : lim ≤ KERNBASE) (hlim' : KERNBASE - 1 ≤ lim)
    (hused : (s.table.proc cur).state ≠ .unused)
    (hpriv : n < 0 → ∀ v, pages (uintOf ((s.table.proc cur).sz + n)) ≤ v → v < pages (s.table.proc cur).sz → sh cur v = none)
    (hzero : strict = true → n < 0 → 0 < (s.table.proc cur).sz → uintOf ((s.table.proc cur).sz + n) ≠ 0) :
    wp (growproc L cur n) (fun r s' => (∃ own', KernOk L strict lim own' sh s') ∧ s'.shmPages = s.shmPages ∧
      (s'.table.proc cur).state = (s.table.proc cur).state ∧
      (0 < n → 0 ≤ r → uintOf ((s.table.proc cur).sz + n) ≤ (s'.table.proc cur).sz)) E s := by
  obtain ⟨d, k, hlive⟩ := h.lives cur hused
  rcases lt_trichotomy n 0 with hn | rfl | hn
  · by_cases hlt : uintOf ((s.table.proc cur).sz + n) < (s.table.proc cur).sz
    · refine wp_mono (growproc_shrink h.phys hlive hlim hn rfl hlt
        (hlive.space.private (pages_le (hlive.size.trans hlim)) (hpriv hn))) (fun r s1 h1 => ?_) fun _ he => he
      obtain ⟨own1, p1, hu, h1⟩ := h1
      have hU := pages_le (hlive.size.trans hlim)
      rcases h1 with ⟨hz, -, rfl⟩ | ⟨-, rfl⟩
      · -- the size is left as it was, although there are no pages any more
        have hstrict : strict = false := by
          by_contra hst
          exact hzero (by simpa using hst) hn (by omega) hz
        subst hstrict
        have hs1 := hlive.space.unmapped hu (pages_mono hlt.le) le_rfl hU
        have hk := h.resize hlive hused hu.phys hu.near hlive.size hs1
        rw [modify_sz_self] at hk
        exact ⟨⟨own1, hk⟩, rfl, rfl, fun h => absurd h (by omega)⟩
      · have hs1 := hlive.space.shrink hu (pages_mono hlt.le) le_rfl hU
        refine ⟨⟨own1, h.resize hlive hused hu.phys hu.near (hlt.le.trans hlive.size) hs1⟩, rfl, by simp, fun h => ?_⟩
        omega
    · -- the sum has wrapped: nothing is freed
      unfold growproc
      simp only [wp_bind, wp_get]
      rw [if_neg (by omega), if_pos hn]
      simp only [wp_bind, hlive.pgdir, wp_useFrame_some, wp_onPhys]
      unfold deallocuvm
      rw [if_pos (by omega)]
      simp only [wp_pure, wp_ite]
      refine ⟨fun _ => ⟨⟨own, h⟩, trivial, trivial, fun h => by omega⟩, fun _ => setSize_wp hlive.kstack hlive.pgdir ?_⟩
      simp only [modify_sz_self]
      exact ⟨⟨own, h⟩, trivial, trivial, fun h => by omega⟩
  · unfold growproc
    simp only [wp_bind, wp_get]
    rw [if_neg (by omega), if_neg (by omega)]
    refine setSize_wp hlive.kstack hlive.pgdir ?_
    simp only [modify_sz_self]
    exact ⟨⟨own, h⟩, trivial, trivial, fun h => by omega⟩
  · refine wp_mono (growproc_grow h.phys hlive hlim hn) (fun r s1 h1 => ?_) fun _ he => he
    obtain ⟨own1, p1, hp1, hl1, -, ⟨rfl, rfl, hs1, -⟩ | ⟨-, z, h1, h2, h3, hs1, -, -, -, rfl⟩⟩ := h1
    · have hk := h.resize hlive hused hp1 hl1 hlive.size hs1
      rw [modify_sz_self] at hk
      exact ⟨⟨own1, hk⟩, rfl, rfl, fun _ hr => absurd hr (by decide)⟩
    · have hsz := hlive.size
      refine ⟨⟨own1, h.resize hlive hused hp1 hl1 (by omega) hs1⟩, rfl, by simp, fun _ _ => by simpa using h2⟩

/-- So does `sbrk`. -/
theorem sysSbrk_wp (h : KernOk L strict lim own sh s) (hlim : lim ≤ KERNBASE) (hlim' : KERNBASE - 1 ≤ lim)
    (hused : (s.table.proc cur).state ≠ .unused)
    (hpriv : ∀ n, a = some n → n < 0 → ∀ v, pages (uintOf ((s.table.proc cur).sz + n)) ≤ v →
      v < pages (s.table.proc cur).sz → sh cur v = none)
    (hzero : ∀ n, a = some n → strict = true → n < 0 → 0 < (s.table.proc cur).sz → uintOf ((s.table.proc cur).sz + n) ≠ 0) :
    wp (sysSbrk L cur a) (fun _ s' => KernInv L strict lim s') E s := by
  cases a with
  | none => exact ⟨own, sh, h⟩
  | some n =>
    unfold sysSbrk
    simp only [wp_bind, wp_get]
    refine wp_mono (growproc_wp h hlim hlim' hused (hpriv n rfl) (hzero n rfl)) (fun r s1 h1 => ?_)
      fun _ he => he
    obtain ⟨⟨own1, hk1⟩, -⟩ := h1
    simp only [wp_ite, wp_pure]
    exact ⟨fun _ => ⟨own1, sh, hk1⟩, fun _ => ⟨own1, sh, hk1⟩⟩

/-! ## Shared memory -/

/-- Memory that no process maps, and no table records, has been written. -/
theorem KernOk.phys_local (h : KernOk L strict lim own sh s) (hp : PhysOk L own' p')
    (hl : Local (fun e => own e = .free) own own' s.phys.mem p'.mem) : KernOk L strict lim own' sh { s with phys := p' } := by
  have hD : ∀ j d, (s.table.proc j).state ≠ .unused → (s.table.proc j).pgdir = some d → ¬ own d = .free := by
    intro j d hj hd
    obtain ⟨e, k, hlive⟩ := h.lives j hj
    have hed : e = d := hlive.pgdir_eq hd
    rw [← hed, hlive.space.dir]
    exact nofun
  refine h.keep 0 hp hl (fun j d _ hj hd => hD j d hj hd) (fun _ _ => rfl) rfl rfl (fun h0 => ?_) (h.idle 0)
  obtain ⟨d, k, hlive⟩ := h.lives 0 h0
  refine ⟨d, k, hlive.local hl (hD 0 d h0 hlive.pgdir), fun j hj hu he => hj ?_⟩
  exact h.apart j 0 hu h0 (he.trans hlive.pgdir.symm)

/-- User pages have been written. -/
theorem KernOk.written (h : KernOk L strict lim own sh s) (hp : PhysOk L own p') (hl : Local (fun _ => False) own own s.phys.mem p'.mem) :
    KernOk L strict lim own sh { s with phys := p' } :=
  h.phys_local hp (hl.mono fun _ h => h.elim)

/-- What `shmem` leaves: the owners in step and, when it has returned an address, zeros there. -/
def ShmemPost (L : Layout) (strict : Bool) (lim : Nat) (s : Kern) (cur : Slot) (r : Int) (s' : Kern) : Prop :=
  KernInv L strict lim s' ∧ (0 ≤ r → r = (s.table.proc cur).sz ∧ ∃ d, (s'.table.proc cur).pgdir = some d ∧
    ∀ k < PGSIZE, userByte s'.phys.mem d ((s.table.proc cur).sz + k) = some 0)

theorem ShmemPost.failed (h : KernInv L strict lim s') : ShmemPost L strict lim s cur (-1) s' :=
  ⟨h, fun hr => absurd hr (by decide)⟩

theorem pageBytes_zero {page : Nat → Nat} (h : page = fun _ => 0) : ∀ b ∈ pageBytes page, b = 0 := by
  subst h
  intro b hb
  obtain ⟨j, -, rfl⟩ := List.mem_map.mp hb
  simp [byteOf]

/-- The copy of `shmem` keeps it too, whether it succeeds or not. -/
theorem shmemCopy_wp {key : Fin SHM_NKEYS} (h : KernOk L strict lim own sh s) (hlim : lim ≤ KERNBASE)
    (hlim' : KERNBASE - 1 ≤ lim) (hused : (s.table.proc cur).state ≠ .unused) (hkey : s.shmPages key = some f) :
    wp (shmemCopy L cur f) (ShmemPost L strict lim s cur) E s := by
  have hsz : (s.table.proc cur).sz ≤ KERNBASE := by
    obtain ⟨d, k, hlive⟩ := h.lives cur hused
    exact hlive.size.trans hlim
  have hnew : uintOf ((s.table.proc cur).sz + (PGSIZE : Int)) = (s.table.proc cur).sz + PGSIZE := by
    simp only [uintOf, PGSIZE, KERNBASE] at *
    omega
  unfold shmemCopy
  simp only [wp_bind, wp_get]
  refine wp_mono (growproc_wp h hlim hlim' hused (fun hn => absurd hn (by decide)) fun _ hn => absurd hn (by decide))
    (fun r s1 h1 => ?_) fun _ he => he
  obtain ⟨⟨own1, hk1⟩, hkeys, hst, hgrow⟩ := h1
  simp only [wp_ite, wp_pure, wp_bind, wp_get]
  refine ⟨fun _ => ShmemPost.failed ⟨own1, sh, hk1⟩, fun hr => ?_⟩
  -- the process has grown by a page, so all the bytes to be written are in its pages
  have hgrow := hgrow (by decide) (by omega)
  rw [hnew] at hgrow
  obtain ⟨d, k, hlive⟩ := hk1.lives cur (by rw [hst]; exact hused)
  have hlen : (pageBytes (s1.phys.mem f)).length = PGSIZE := by simp [pageBytes]
  have hzero := pageBytes_zero (hk1.keys key f (by rw [hkeys]; exact hkey)).2
  generalize pageBytes (s1.phys.mem f) = bs at hlen hzero ⊢
  have hfit : (s.table.proc cur).sz + bs.length ≤ pages (s1.table.proc cur).sz * PGSIZE := by
    rw [hlen]
    simp only [pages, PGSIZE] at *
    omega
  simp only [hlive.pgdir, wp_useFrame_some, wp_bind, wp_onPhys]
  refine wp_mono (wp_and (copyout_wp hk1.phys hlive.space (Or.inl hfit)) (copyout_copied hlive.space hfit))
    (fun r p2 h2 => ?_) fun _ he => he
  obtain ⟨⟨hp2, hl2, -⟩, hz2⟩ := h2
  have hk2 := hk1.written hp2 hl2
  simp only [wp_ite, wp_pure]
  refine ⟨fun _ => ShmemPost.failed ⟨own1, sh, hk2⟩, fun hr2 => ⟨⟨own1, sh, hk2⟩, fun _ => ⟨?_, d, hlive.pgdir, ?_⟩⟩⟩
  · have hsz1 := hlive.size
    refine int32_of_lt (by omega) ?_
    simp only [KERNBASE, PGSIZE] at *
    omega
  · rw [← hlen]
    exact hz2.read hzero (by omega)

/-- A page has been taken for a table of shared pages, and zeroed. -/
theorem KernOk.take (h : KernOk L strict lim own sh s) (hf : own f = .free) (hm : p1.mem = s.phys.mem)
    (hp1 : PhysOk L (update own f .loose) p1) : KernOk L strict lim (update own f .loose) sh { s with phys := p1.fill f 0 } :=
  h.phys_local (hp1.setPage _ _) (Local.taken hf hm)

/-- The first use of a key. -/
theorem KernOk.newKey {key : Fin SHM_NKEYS} (h : KernOk L strict lim own sh s) (hf : own f = .free) (hm : p1.mem = s.phys.mem)
    (hp1 : PhysOk L (update own f .loose) p1) :
    KernOk L strict lim (update own f (.shm key)) sh
      { s with phys := p1.fill f 0, shmPages := update s.shmPages key (some f) } := by
  have hk := h.take hf hm hp1
  have hup : update (update own f .loose) f (.shm key) = update own f (.shm key) :=
    Function.update_idem _ _ _
  have hp2 := hk.phys.relabel (f := f) (o := .shm key) (by simp) (by simp) nofun
  have hk2 := hk.relabel hp2 (by simp [Owner.UsedBy]) (by simp) (by simp) nofun
  rw [hup] at hk2
  refine ⟨hk2.phys, hk2.lives, hk2.idle, hk2.apart, hk2.regions, fun j g hg => ?_, hk2.counts⟩
  by_cases hj : j = key
  · subst hj
    have hgf : g = f := by simpa using hg.symm
    rw [hgf]
    exact ⟨update_self _ _ _, fill_mem_self⟩
  · refine hk2.keys j g ?_
    simpa [hj] using hg

/-- So `shmem` does, at the first use of a key as well. -/
theorem sysShmem_wp (h : KernOk L strict lim own sh s) (hlim : lim ≤ KERNBASE) (hlim' : KERNBASE - 1 ≤ lim)
    (hused : (s.table.proc cur).state ≠ .unused) : wp (sysShmem L cur a) (ShmemPost L strict lim s cur) E s := by
  unfold sysShmem
  split
  · exact ShmemPost.failed ⟨own, sh, h⟩
  rename_i key _
  simp only [wp_bind, wp_get]
  split
  · exact shmemCopy_wp h hlim hlim' hused ‹_›
  simp only [wp_bind, wp_onPhys]
  refine kalloc_wp h.phys (fun _ => ShmemPost.failed ⟨own, sh, h⟩) fun f p1 hf hm _ hp1 => ?_
  simp only [wp_bind, wp_modify]
  exact shmemCopy_wp (h.newKey hf hm hp1) hlim hlim' hused (show update s.shmPages key (some f) key = some f from
    update_self _ _ _)

/-- A mapping attempted where there is one already. -/
theorem mappages_remap {perm pa v : Nat} {p : Phys} {Q : Int → Phys → Prop} (hv : v < VPAGES) (hm : Mapped p.mem d v)
    (hE : E .remap) : wp (mappages d (v * PGSIZE) PGSIZE pa perm) Q E p := by
  have hP : hasP (p.mem d (v / 1024)) = true := by
    by_contra hno
    unfold Mapped pte at hm
    rw [if_neg hno] at hm
    cases hm
  have heq := mappages_eq d pa perm Nat.one_pos hv
  rw [Nat.one_mul] at heq
  rw [heq]
  unfold mapLoop walkpgdir
  simp only [wp_bind, wp_get, wp_ite, wp_pure, pdx_page hv, ptx_page]
  refine ⟨fun _ => ⟨fun _ => hE, fun hno => ?_⟩, fun h => absurd hP h⟩
  unfold Mapped pte at hm
  rw [if_pos hP] at hm
  exact absurd hm hno

/-- What `shmget` does with the page of a region: the page is mapped after the last one of the process and nothing else is, or
memory was short. -/
def ShmPost (L : Layout) (strict : Bool) (own : Own) (q : Share) (s : Kern) (cur : Slot) (id : Fin NSHM) (page d : Frame) (r : Int)
    (s' : Kern) : Prop :=
  r = -1 ∧ s' = s ∧ s.phys.freelist.length < absent s.phys.mem d ∨
    r = (pages (s.table.proc cur).sz * PGSIZE : Nat) ∧ ∃ own' p', PhysOk L own' p' ∧ Local (· = d) own own' s.phys.mem p'.mem ∧
      p'.freelist.length + absent s.phys.mem d = s.phys.freelist.length + absent p'.mem d ∧
      s' = { s with
        phys := p'
        table := s.table.modify cur fun q => { q with sz := (pages (s.table.proc cur).sz + 1) * PGSIZE }
        regions := update s.regions id { s.regions id with refcnt := int32 ((s.regions id).refcnt + 1) } } ∧
      Space strict (update q (pages (s.table.proc cur).sz) (some id)) own' p'.mem d (pages (s.table.proc cur).sz + 1) ∧
      ∀ u < VPAGES, pte p'.mem d u =
        if u = pages (s.table.proc cur).sz then page * PGSIZE ||| (PTE_W ||| PTE_U) ||| PTE_P else pte s.phys.mem d u

theorem shmgetMap_wp {page : Frame} (hp : PhysOk L own s.phys) (hlive : Lives strict lim own q s.phys.mem cur (s.table.proc cur) d k)
    (hf : own page = .region id) (hlim : lim ≤ KERNBASE) :
    wp (shmgetMap cur id page)
      (fun r s' => pages (s.table.proc cur).sz < UPAGES ∧ ShmPost L strict own q s cur id page d r s')
      (fun e => e = .remap ∧ pages (s.table.proc cur).sz = UPAGES) s := by
  have hsz := hlive.size.trans hlim
  unfold shmgetMap
  simp only [wp_bind, wp_get, hlive.pgdir, wp_useFrame_some, wp_onPhys, pgRoundUp_eq hsz]
  rcases (pages_le hsz).lt_or_eq with hn | hn
  · refine mappages_page hp hlive.space.toTables (lt_VPAGES hn) (hlive.space.not_mapped hn) (fun hl hno => ?_)
      fun p1 own1 hw hP hpte => ?_
    · rw [if_pos (by decide)]
      refine ⟨hn, Or.inl ⟨rfl, rfl, ?_⟩⟩
      rw [hl]
      exact (lacks_of_absent hno).ge.trans (lacks_le (lt_VPAGES hn))
    · rw [if_neg (by decide)]
      have hs1 : Space strict (update q (pages (s.table.proc cur).sz) (some id)) own1 p1.mem d
          (pages (s.table.proc cur).sz + 1) := by
        refine hlive.space.grow hn hw.tables (fun g hg => hw.usedBy hg) hw.dirs hP hpte (hasP_entry _ _)
          (fun u hu => update_of_ne hu _ _) ?_
        rw [pteFrame_entry page (by decide), hw.keep page (by rw [hf]; intro he; cases he), hf,
          Share.owner_some (update_self _ _ _)]
      have hva : int32 (pages (s.table.proc cur).sz * PGSIZE : Nat) = (pages (s.table.proc cur).sz * PGSIZE : Nat) := by
        refine int32_of_lt (by omega) ?_
        simp only [UPAGES, KERNBASE, PGSIZE] at *
        omega
      simp only [wp_bind, wp_onTable, wp_modify, u32_next hn, hva]
      refine switchuvm_wp (by simpa using hlive.kstack) (by simpa using hlive.pgdir) ?_
      exact ⟨hn, Or.inr ⟨rfl, own1, p1, hw.phys, hw.near, hw.budget, rfl, hs1, hpte⟩⟩
  · rw [hn]
    exact mappages_remap UPAGES_lt hlive.space.kern ⟨rfl, rfl⟩

@[simp] theorem count_noShare (r : Fin NSHM) : noShare.count r = 0 := by
  simp [Share.count, noShare]

theorem Share.count_le (q : Share) (r : Fin NSHM) : q.count r ≤ UPAGES :=
  (Finset.card_filter_le _ _).trans (Finset.card_range _).le

/-- One more page of a region. -/
theorem Share.count_update {n : Nat} (hn : n < UPAGES) (hnone : q n = none) (r : Fin NSHM) :
    Share.count (update q n (some id)) r = q.count r + if r = id then 1 else 0 := by
  have hmem : ∀ v, update q n (some id) v = some r ↔ q v = some r ∨ v = n ∧ r = id := fun v => by
    by_cases hv : v = n
    · subst hv
      simp [hnone, eq_comm]
    · simp [hv]
  unfold Share.count
  simp only [hmem]
  by_cases hr : r = id
  · have heq : (Finset.range UPAGES).filter (fun v => q v = some r ∨ v = n ∧ r = id) =
        insert n ((Finset.range UPAGES).filter fun v => q v = some r) := by
      ext v
      simp only [Finset.mem_filter, Finset.mem_range, Finset.mem_insert, hr, and_true]
      constructor
      · rintro ⟨hv, h | h⟩
        · exact Or.inr ⟨hv, h⟩
        · exact Or.inl h
      · rintro (rfl | ⟨hv, h⟩)
        · exact ⟨hn, Or.inr rfl⟩
        · exact ⟨hv, Or.inl h⟩
    rw [heq, Finset.card_insert_of_notMem (by simp [hnone]), if_pos hr]
  · simp [hr]

/-- The count of a region is far below the largest `int`. -/
theorem KernOk.refcnt_lt (h : KernOk L strict lim own sh s) (r : Fin NSHM) :
    0 ≤ (s.regions r).refcnt ∧ (s.regions r).refcnt < 2 ^ 26 := by
  have hle : ∑ i, (sh i).count r ≤ NPROC * UPAGES := by
    have := Finset.sum_le_card_nsmul Finset.univ (fun i => (sh i).count r) UPAGES fun i _ => (sh i).count_le r
    simpa using this
  have hU : NPROC * UPAGES < 2 ^ 26 := by decide
  rw [h.counts r]
  omega

/-- The page of a region is mapped into a process. -/
theorem KernOk.shmPost {page : Frame} {r : Int} (h : KernOk L strict lim own sh s) (hused : (s.table.proc cur).state ≠ .unused)
    (hlive : Lives strict lim own (sh cur) s.phys.mem cur (s.table.proc cur) d k) (hn : pages (s.table.proc cur).sz < UPAGES)
    (hbelow : (pages (s.table.proc cur).sz + 1) * PGSIZE ≤ lim) (hpost : ShmPost L strict own (sh cur) s cur id page d r s') :
    KernInv L strict lim s' := by
  obtain ⟨-, rfl, -⟩ | ⟨-, own1, p1, hp1, hl1, -, rfl, hs1, -⟩ := hpost
  · exact ⟨own, sh, h⟩
  · have hapart : ∀ j, j ≠ cur → (s.table.proc j).state ≠ .unused → (s.table.proc j).pgdir ≠ some d := fun j hj hu he =>
      hj (h.apart j cur hu hused (he.trans hlive.pgdir.symm))
    have hnone := hlive.space.share_none (hlive.space.not_mapped hn)
    refine ⟨own1, _, h.change (q := update (sh cur) (pages (s.table.proc cur).sz) (some id)) cur hp1 hl1
      (fun j e hj hu he hd => hapart j hj hu (hd ▸ he)) (fun j hj => ?_) (fun r => ?_) rfl
      (fun _ => ⟨d, k, ⟨by simpa using hlive.pgdir, by simpa using hlive.kstack, ?_, by simpa using hbelow, ?_⟩, hapart⟩)
      (fun hno => absurd hno (by simpa using hused)) fun r => ?_⟩
    · dsimp only
      rw [modify_proc_of_ne _ _ hj]
    · by_cases hr : r = id
      · subst hr
        simp
      · simp [hr]
    · rw [hl1.keep k (by rw [hlive.stack]; exact not_false), hlive.stack]
    · simp only [modify_proc_self, pages_mul]
      exact hs1
    · rw [Share.count_update hn hnone]
      by_cases hr : r = id
      · subst hr
        have hlt := h.refcnt_lt r
        have hint : int32 ((s.regions r).refcnt + 1) = (s.regions r).refcnt + 1 := int32_of_lt (by omega) (by omega)
        simp only [update_self, hint, if_pos]
        push_cast
        omega
      · simp only [update_of_ne hr, if_neg hr, add_zero]

/-- A region that has no page shows nowhere. -/
theorem KernOk.count_zero {r : Fin NSHM} (h : KernOk L strict lim own sh s) (hnone : (s.regions r).page = none) (i : Slot) :
    (sh i).count r = 0 := by
  refine Finset.card_eq_zero.mpr (Finset.filter_eq_empty_iff.mpr fun v _ hv => ?_)
  have hused : (s.table.proc i).state ≠ .unused := fun hu => by
    rw [h.idle i hu] at hv
    cases hv
  obtain ⟨d, k, hlive⟩ := h.lives i hused
  obtain ⟨hvU, hm⟩ := hlive.space.shows v r hv
  have ho := (hlive.space.page v hvU hm).2.trans (Share.owner_some hv)
  rw [h.regions, hnone] at ho
  cases ho

/-- The first use of a region. -/
theorem KernOk.newRegion (h : KernOk L strict lim own sh s) (hf : own f = .free) (hm : p1.mem = s.phys.mem)
    (hp1 : PhysOk L (update own f .loose) p1) (hnone : (s.regions id).page = none) :
    KernOk L strict lim (update own f (.region id)) sh { s with
      phys := p1.fill f 0, regions := update s.regions id { page := some f, refcnt := 0 } } := by
  have hk := h.take hf hm hp1
  have hup : ∀ o, update (update own f .loose) f o = update own f o := fun o =>
    Function.update_idem _ _ _
  have hfree : ∀ e, ¬ (update own f .loose f).UsedBy e := by simp [Owner.UsedBy]
  have hp2 := hk.phys.relabel (f := f) (o := .region id) (by simp) (by simp) fun he => by cases he
  rw [hup] at hp2
  refine ⟨hp2, fun i hi => ?_, hk.idle, hk.apart, fun r g => ?_, fun j g hj => ?_, fun r => ?_⟩
  · obtain ⟨d, k, hlive⟩ := hk.lives i hi
    have hne : k ≠ f := fun he => by
      have := hlive.stack
      simp [he] at this
    have hs := hlive.space.relabel (o := .region id) (hfree d)
    have hst := hlive.stack
    rw [hup] at hs
    rw [update_of_ne hne] at hst
    exact ⟨d, k, hlive.pgdir, hlive.kstack, by rw [update_of_ne hne, hst], hlive.size, hs⟩
  · by_cases hg : g = f
    · subst hg
      by_cases hr : r = id
      · subst hr
        simp
      · have hno : (s.regions r).page ≠ some g := fun he => by
          rw [← h.regions, hf] at he
          cases he
        simp [hr, Ne.symm hr, hno]
    · rw [update_of_ne hg, h.regions]
      by_cases hr : r = id
      · subst hr
        simp [hnone, Ne.symm hg]
      · simp [hr]
  · obtain ⟨hg, hz⟩ := hk.keys j g hj
    have hne : g ≠ f := fun he => by
      rw [he, update_self] at hg
      cases hg
    rw [update_of_ne hne] at hg ⊢
    exact ⟨hg, hz⟩
  · by_cases hr : r = id
    · subst hr
      rw [Finset.sum_eq_zero fun i _ => h.count_zero hnone i]
      simp only [update_self, Nat.cast_zero]
    · simp only [update_of_ne hr]
      exact h.counts r

/-- The region `id` has the page `page` in `s0`, which is the state `s` or differs from it by that page. -/
structure RegionReady (s s0 : Kern) (id : Fin NSHM) (page d : Frame) : Prop where
  table : s0.table = s.table
  page : (s0.regions id).page = some page
  pte : ∀ u < VPAGES, pte s0.phys.mem d u = pte s.phys.mem d u
  absent : absent s0.phys.mem d = absent s.phys.mem d
  length : s.phys.freelist.length ≤ s0.phys.freelist.length + 1
  counts : ∀ r, (s0.regions r).refcnt = (s.regions r).refcnt
  kept : ∀ f, (s.regions id).page = some f → s0 = s
  fresh : (s.regions id).page = none → (s0.regions id).refcnt = 0

/-- What `shmget` does: it fails at once, or it sees to it that the region has a page, and maps it. It panics only in a process
that reaches up to the kernel. -/
theorem shmget_wp (id : Int) (h : KernOk L strict lim own sh s) (hlim : lim ≤ KERNBASE)
    (hused : (s.table.proc cur).state ≠ .unused) (hd : (s.table.proc cur).pgdir = some d) :
    wp (shmget cur id)
      (fun r s' => r = -1 ∧ s' = s ∧ (argIndex NSHM id = none ∨
          ∃ j, argIndex NSHM id = some j ∧ (s.regions j).page = none ∧ s.phys.freelist = []) ∨
        ∃ j s0 own0 k page, argIndex NSHM id = some j ∧ KernOk L strict lim own0 sh s0 ∧ RegionReady s s0 j page d ∧
          Lives strict lim own0 (sh cur) s0.phys.mem cur (s0.table.proc cur) d k ∧ own0 page = .region j ∧
          pages (s.table.proc cur).sz < UPAGES ∧ ShmPost L strict own0 (sh cur) s0 cur j page d r s')
      (fun e => e = .remap ∧ pages (s.table.proc cur).sz = UPAGES) s := by
  unfold shmget
  split
  · exact Or.inl ⟨rfl, rfl, Or.inl ‹_›⟩
  rename_i j hj
  simp only [wp_bind, wp_get]
  obtain ⟨d', k, hlive⟩ := h.lives cur hused
  obtain rfl : d' = d := hlive.pgdir_eq hd
  split
  · rename_i f hf
    have ho := (h.regions j f).mpr hf
    refine wp_mono (shmgetMap_wp h.phys hlive ho hlim) (fun r s1 h1 => ?_) fun _ he => he
    have hready : RegionReady s s j f d' := ⟨rfl, hf, fun _ _ => rfl, rfl, Nat.le_succ _, fun _ => rfl, fun _ _ => rfl, fun hno => by
      rw [hf] at hno
      cases hno⟩
    exact Or.inr ⟨j, s, own, k, f, hj, h, hready, hlive, ho, h1.1, h1.2⟩
  · rename_i hnone
    simp only [wp_bind, wp_onPhys]
    refine kalloc_wp h.phys (fun hl => Or.inl ⟨rfl, rfl, Or.inr ⟨j, hj, hnone, hl⟩⟩) fun f p1 hf hm hl hp1 => ?_
    have hk := h.newRegion hf hm hp1 hnone
    obtain ⟨d'', k, hlive'⟩ := hk.lives cur hused
    obtain rfl : d'' = d' := hlive'.pgdir_eq hd
    have hmem : ∀ g, g ≠ f → (p1.fill f 0).mem g = s.phys.mem g := fun g hg => by rw [fill_mem_of_ne hg, hm]
    have hdf : d'' ≠ f := fun he => by
      have := hlive.space.dir
      rw [he, hf] at this
      cases this
    simp only [wp_bind, wp_modify]
    refine wp_mono (shmgetMap_wp hk.phys hlive' (by simp) hlim) (fun r s1 h1 => ?_) fun _ he => he
    refine Or.inr ⟨j, _, _, k, f, hj, hk, ⟨rfl, by simp, fun u hu => ?_, ?_, ?_, fun r => ?_, fun g hg => ?_, fun _ => by simp⟩, hlive',
      by simp, h1.1, h1.2⟩
    · refine hlive.space.pte_congr (fun g hg => hmem g fun he => ?_) hu
      rw [he, hf] at hg
      exact hg
    · exact absent_congr (hmem _ hdf)
    · rw [hl]
      exact le_rfl
    · -- a region without a page has no mappings to count
      by_cases hr : r = j
      · subst hr
        have h0 : (s.regions r).refcnt = 0 := by
          rw [h.counts r, Finset.sum_eq_zero fun i _ => h.count_zero hnone i]
          rfl
        simp [h0]
      · simp [hr]
    · rw [hnone] at hg
      cases hg

/-- `shmget` keeps the owners in step. -/
theorem sysShmget_wp (h : KernOk L strict lim own sh s) (hlim : lim ≤ KERNBASE) (hused : (s.table.proc cur).state ≠ .unused)
    (hbelow : lim < KERNBASE → (pages (s.table.proc cur).sz + 1) * PGSIZE ≤ lim) :
    wp (sysShmget cur a) (fun _ s' => KernInv L strict lim s')
      (fun e => e = .remap ∧ pages (s.table.proc cur).sz = UPAGES) s := by
  have hfit : pages (s.table.proc cur).sz < UPAGES → (pages (s.table.proc cur).sz + 1) * PGSIZE ≤ lim := fun hn => by
    rcases hlim.lt_or_eq with hl | hl
    · exact hbelow hl
    · rw [hl]
      exact Nat.mul_le_mul_right PGSIZE hn
  unfold sysShmget
  split
  · exact ⟨own, sh, h⟩
  obtain ⟨d, k, hlive⟩ := h.lives cur hused
  refine wp_mono (shmget_wp _ h hlim hused hlive.pgdir) (fun r s1 h1 => ?_) fun _ he => he
  obtain ⟨-, rfl, -⟩ | ⟨j, s0, own0, k0, page, -, hk, hready, hlive0, -, hn, hpost⟩ := h1
  · exact ⟨own, sh, h⟩
  · rw [← hready.table] at hused hn hfit
    exact hk.shmPost hused hlive0 hn (hfit hn) hpost

/-! ## Processes -/

/-- A page that has been taken and not been put to use is freed. -/
theorem KernOk.free {p1 : Phys} (h : KernOk L strict lim own sh { s with phys := p1 }) (p2 : Phys) (hf : own f = .loose)
    (hp : PhysOk L (update own f .free) p2) (hmem : ∀ g, g ≠ f → p2.mem g = p1.mem g) :
    KernOk L strict lim (update own f .free) sh { s with phys := p2 } :=
  h.phys_local (s := { s with phys := p1 }) hp (Local.freed (by rw [hf]; trivial) hmem)

/-- A slot that is not in use any more may be changed, when no region showed in its process. -/
theorem KernOk.unusedSlot (h : KernOk L strict lim own sh s) (i : Slot) (htab : ∀ j, j ≠ i → t.proc j = s.table.proc j)
    (hi : (t.proc i).state = .unused) (hno : sh i = noShare) : KernOk L strict lim own sh { s with table := t } :=
  h.keep (D := fun _ => False) i h.phys Local.refl (fun _ _ _ _ _ => not_false) htab rfl rfl (fun hu => absurd hi hu)
    fun _ => hno

theorem freeSlot_unused {np : Slot} (h : freeSlot t = some np) : (t.proc np).state = .unused := by
  have := List.find?_some h
  simpa using this

/-- What `fork` and `fork2` write into the child: the address space, and the size of the parent. -/
structure ForkCopies (cur : Slot) (copy : Slot → Frame → Table → Table) : Prop where
  others : ∀ np d t j, j ≠ np → (copy np d t).proc j = t.proc j
  pgdir : ∀ np d t, ((copy np d t).proc np).pgdir = some d
  size : ∀ np d t, ((copy np d t).proc np).sz = (t.proc cur).sz
  kstack : ∀ np d t, ((copy np d t).proc np).kstack = (t.proc np).kstack

theorem forkCopies_fork (cur : Slot) : ForkCopies cur (forkCopy cur) where
  others np d t j hj := by simp [forkCopy, Table.modify, hj]
  pgdir np d t := by simp [forkCopy]
  size np d t := by simp [forkCopy]
  kstack np d t := by simp [forkCopy]

/-- The copy of `fork2` differs in the priority only. -/
theorem forkCopies_fork2 (cur : Slot) (priority : Int) : ForkCopies cur fun np => fork2Copy cur np priority where
  others np d t j hj := by simp [fork2Copy, forkCopy, Table.modify, hj]
  pgdir np d t := by simp [fork2Copy, forkCopy]
  size np d t := by simp [fork2Copy, forkCopy]
  kstack np d t := by simp [fork2Copy, forkCopy]

theorem allocprocStack_of_ne {np j : Slot} {o : Option Frame} (h : j ≠ np) : (allocprocStack np o t).proc j = t.proc j := by
  unfold allocprocStack
  split <;> exact modify_proc_of_ne t _ h

/-- `fork` and `fork2`. They panic only when a page of the parent is missing. -/
theorem forkWith_wp {copy : Slot → Frame → Table → Table} (hc : ForkCopies cur copy) (h : KernOk L strict lim own sh s)
    (hused : (s.table.proc cur).state ≠ .unused) :
    wp (forkWith L cur copy) (fun _ s' => KernInv L strict lim s')
      (fun e => strict = false ∧ e = .copyuvmPresent) s := by
  obtain ⟨d, k0, hlive⟩ := h.lives cur hused
  unfold forkWith allocprocClaim
  simp only [wp_bind, wp_get]
  rcases hfs : freeSlot s.table with _ | np
  · exact ⟨own, sh, h⟩
  have hnp := freeSlot_unused hfs
  have hne : cur ≠ np := fun he => hused (he ▸ hnp)
  simp only [wp_bind, wp_onTable, wp_onPhys]
  refine kalloc_wp h.phys (fun _ => ?_) fun k p1 hk hm _ hp1 => ?_
  · refine ⟨own, sh, h.unusedSlot np (fun j hj => ?_) (by simp [allocprocStack]) (h.idle np hnp)⟩
    rw [allocprocStack_of_ne hj, allocprocFound_of_ne hj]
  -- the page is the kernel stack of the slot, which is not in use yet
  have hup : ∀ o, update (update own k .loose) k o = update own k o := fun o =>
    Function.update_idem _ _ _
  have hk1 : KernOk L strict lim (update own k (.stack np)) sh { s with phys := p1 } := by
    have ht : KernOk L strict lim (update own k .loose) sh { s with phys := p1 } :=
      h.phys_local hp1 (hm ▸ Local.of_own (by rw [hk]; trivial) trivial)
    have hp2 := hp1.relabel (f := k) (o := .stack np) (by simp) (by simp) fun he => by cases he
    have hr := ht.relabel hp2 (by simp [Owner.UsedBy]) (by simp) (by simp) (fun _ he => by cases he)
    rwa [hup] at hr
  have hcur : ∀ t : Table, (allocprocStack np (some k) (allocprocFound np t)).proc cur = t.proc cur := fun t => by
    rw [allocprocStack_of_ne hne, allocprocFound_of_ne hne]
  have hspace : Space strict (sh cur) (update own k (.stack np)) p1.mem d (pages (s.table.proc cur).sz) := by
    obtain ⟨d', k', hlive'⟩ := hk1.lives cur hused
    have hdd : d' = d := hlive'.pgdir_eq hlive.pgdir
    rw [← hdd]
    exact hlive'.space
  simp only [wp_bind, wp_get, hcur, hlive.pgdir, wp_useFrame_some, wp_onPhys]
  refine wp_mono (copyuvm_wp hk1.phys hspace) (fun r p2 h2 => ?_) fun _ he => he
  obtain ⟨own2, hp2, hl2, hr⟩ := h2
  have hk2 : KernOk L strict lim own2 sh { s with phys := p2 } := hk1.phys_local hp2 hl2
  have hst2 : own2 k = .stack np := by rw [hl2.keep k (by simp [Owner.Within])]; simp
  cases r with
  | none =>
    -- the stack is given back
    simp only [wp_bind, wp_onPhys, wp_onTable]
    refine kfree_wp hp2 (by simp [hst2]) (by simp [hst2]) fun p3 hp3 hmem _ => ?_
    have hp2' := hp2.relabel (f := k) (o := .loose) (by simp [hst2]) (by simp [hst2]) fun he => by cases he
    have hl := hk2.relabel hp2' (by simp [hst2, Owner.UsedBy])
      (fun i hi he => hi (by rw [hst2] at he; exact Owner.stack.inj he ▸ hnp)) (by simp [hst2]) (fun _ he => by cases he)
    have hidem : update (update own2 k .loose) k .free = update own2 k .free :=
      Function.update_idem _ _ _
    have hk3 := hl.free p3 (by simp) (by rw [hidem]; exact hp3) hmem
    rw [hidem] at hk3
    refine ⟨_, sh, hk3.unusedSlot np (fun j hj => ?_) (by simp [forkFail]) (h.idle np hnp)⟩
    unfold forkFail
    rw [modify_proc_of_ne _ _ hj, allocprocStack_of_ne hj, allocprocFound_of_ne hj]
  | some e =>
    obtain ⟨he, hs⟩ := hr e rfl
    simp only [wp_bind, wp_onTable, wp_get, wp_pure]
    refine ⟨own2, sh, hk2.keep (D := fun _ => False) np hp2 Local.refl (fun _ _ _ _ _ => not_false) (fun j hj => ?_)
      rfl rfl (fun _ => ⟨e, k, ⟨?_, ?_, hst2, ?_, ?_⟩, fun j hj hu hje => ?_⟩) fun _ => h.idle np hnp⟩
    · dsimp only [forkPublish]
      rw [modify_proc_of_ne _ _ hj, hc.others np e _ j hj, allocprocStack_of_ne hj, allocprocFound_of_ne hj]
    · simpa [forkPublish] using hc.pgdir np e _
    · simp [forkPublish, hc.kstack, allocprocStack]
    · simpa [forkPublish, hc.size, hcur] using hlive.size
    · rw [h.idle np hnp]
      simpa [forkPublish, hc.size, hcur] using hs.weaken
    · -- the directory was free, so it is nobody's
      obtain ⟨d', k', hlive'⟩ := hk1.lives j hu
      have hde : d' = e := hlive'.pgdir_eq hje
      rw [← hde, hlive'.space.dir] at he
      cases he

theorem fork2_wp {priority : Int} (h : KernOk L strict lim own sh s) (hused : (s.table.proc cur).state ≠ .unused) :
    wp (fork2 L cur priority) (fun _ s' => KernInv L strict lim s') (fun e => strict = false ∧ e = .copyuvmPresent) s := by
  unfold fork2
  rw [wp_ite]
  exact ⟨fun _ => ⟨own, sh, h⟩, fun _ => forkWith_wp (forkCopies_fork2 cur priority) h hused⟩

/-- What `exec` leaves when it has built the image `im`: the image is in the slot of the caller, and the old pages are free. -/
structure ExecPost (s : Kern) (cur : Slot) (im : Image) (p : Phys) (s' : Kern) : Prop where
  state : (s'.table.proc cur).state = (s.table.proc cur).state
  size : (s'.table.proc cur).sz = im.sz
  pgdir : (s'.table.proc cur).pgdir = some im.pgdir
  regions : s'.regions = s.regions
  pte : ∀ u < VPAGES, pte s'.phys.mem im.pgdir u = pte p.mem im.pgdir u
  length : p.freelist.length ≤ s'.phys.freelist.length

/-- `exec`: the address space of the caller is replaced by a new one, or nothing changes. -/
theorem exec_wp {c : ExecCall} (h : KernOk L strict lim own sh s) (hlim : lim ≤ KERNBASE) (hlim' : KERNBASE - 1 ≤ lim)
    (hused : (s.table.proc cur).state ≠ .unused) (hargv : ∀ a ∈ c.argv, a.length + 1 ≤ STRMAX)
    (hpriv : ∀ file im p, c.file = some file → execImage L file c.argv s.phys = .ok (some im, p) → sh cur = noShare) :
    wp (exec L cur c) (fun _ s' => KernInv L strict lim s' ∧ ∀ file im p, c.file = some file →
      execImage L file c.argv s.phys = .ok (some im, p) → ExecPost s cur im p s') E s := by
  obtain ⟨d, k, hlive⟩ := h.lives cur hused
  unfold exec
  rcases hfile : c.file with _ | file
  · exact ⟨⟨own, sh, h⟩, fun _ _ _ he => by cases he⟩
  simp only [wp_bind, wp_onPhys]
  refine wp_run (execImage_wp h.phys hargv) fun r p1 hrun h1 => ?_
  obtain ⟨own1, hp1, hl1, him⟩ := h1
  have hk1 : KernOk L strict lim own1 sh { s with phys := p1 } := h.phys_local hp1 hl1
  cases r with
  | none =>
    refine ⟨⟨own1, sh, hk1⟩, fun file' im p hf him => ?_⟩
    cases hf
    cases hrun.symm.trans him
  | some im =>
    obtain ⟨hfree, hsz, hs1⟩ := him im rfl
    have hne : d ≠ im.pgdir := fun he => by
      rw [← he, hlive.space.dir] at hfree
      cases hfree
    have hold : ¬ own d = .free := by rw [hlive.space.dir]; intro he; cases he
    have hno : sh cur = noShare := hpriv file im p1 hfile hrun
    have hlive1 := hlive.local hl1 hold
    have hst : own1 k = .stack cur := hlive1.stack
    simp only [execCommit, wp_bind, wp_get, hlive.pgdir, wp_onTable]
    refine switchuvm_wp (d := im.pgdir) (k := k) (by simpa using hlive.kstack) (by simp) ?_
    simp only [wp_bind, wp_onPhys]
    have hpriv1 : Private own1 p1.mem d 0 UPAGES := hlive1.space.private le_rfl fun v _ _ => by rw [hno]; rfl
    refine wp_mono (freevm_wp hp1 hlive1.space.toTables hpriv1) (fun _ p2 h2 => ?_) fun _ he => he
    obtain ⟨own2, hp2, hl2, hle⟩ := h2
    refine ⟨?_, fun file' im' p hf him => ?_⟩
    on_goal 2 =>
      cases hf
      cases hrun.symm.trans him
      exact ⟨by simp, by simp, by simp, rfl, fun u hu =>
        hs1.pte_congr (fun g hg => hl2.mem g (hg.usedBy.not_within hne.symm) hg.kernelOnly) hu, hle⟩
    have hapart : ∀ j, j ≠ cur → (s.table.proc j).state ≠ .unused → (s.table.proc j).pgdir ≠ some d := fun j hj hu he =>
      hj (h.apart j cur hu hused (he.trans hlive.pgdir.symm))
    refine ⟨own2, sh, hk1.keep cur hp2 hl2 (fun j e hj hu he hd => hapart j hj hu (hd ▸ he)) (fun j hj => ?_) rfl rfl
      (fun _ => ⟨im.pgdir, k, ⟨by simp, by simpa using hlive.kstack, ?_, ?_, ?_⟩, fun j hj hu he => ?_⟩) fun _ => hno⟩
    · dsimp only
      rw [modify_proc_of_ne _ _ hj]
    · rw [hl2.keep k (by rw [hst]; exact not_false), hst]
    · simp only [modify_proc_self]
      omega
    · have hs2 : Space strict noShare own1 p1.mem im.pgdir (pages im.sz) := hs1.weaken
      rw [hno]
      simpa using hs2.local hl2 hne.symm
    · obtain ⟨d', k', hlive'⟩ := h.lives j hu
      have hde : d' = im.pgdir := hlive'.pgdir_eq he
      rw [← hde, hlive'.space.dir] at hfree
      cases hfree

/-- `exit` leaves what its changes do not reach: it writes states, parents and end times. -/
theorem exitTable_keeps {β : Type} (g : Proc → β)
    (hg : ∀ p st q e, g { p with state := st, parent := q, etime := e } = g p) (cur : Slot) (t : Table) (i : Slot) :
    g ((exitTable cur t).proc i) = g (t.proc i) := by
  have hwake : ∀ c t, g ((wakeup1 c t).proc i) = g (t.proc i) := fun c t => by
    simp only [wakeup1]
    split
    · exact hg (t.proc i) .runnable (t.proc i).parent (t.proc i).etime
    · rfl
  have hmod : ∀ (t : Table) (j : Slot) (f : Proc → Proc), g (f (t.proc j)) = g (t.proc j) →
      g ((t.modify j f).proc i) = g (t.proc i) := fun t j f hf => by
    by_cases hij : i = j
    · rw [hij, modify_proc_self, hf]
    · rw [modify_proc_of_ne t f hij]
  have hone : ∀ t j, g ((reparentOne cur t j).proc i) = g (t.proc i) := fun t j => by
    unfold reparentOne
    split
    · have hm := hmod t j (fun p => { p with parent := some t.initproc })
        (hg (t.proc j) (t.proc j).state (some t.initproc) (t.proc j).etime)
      dsimp only
      split
      · rw [hwake, hm]
      · exact hm
    · rfl
  have hfold : ∀ (l : List Slot) (t : Table), g ((l.foldl (reparentOne cur) t).proc i) = g (t.proc i) := fun l => by
    induction l with
    | nil => exact fun _ => rfl
    | cons j l ih => exact fun t => (ih _).trans (hone t j)
  have hr : g ((exitReparent cur t).proc i) = g (t.proc i) := by
    unfold exitReparent
    generalize slots = l
    rw [hfold, hwake]
  unfold exitTable
  generalize exitReparent cur t = t' at hr ⊢
  have hz : g { t'.proc cur with etime := int32 t'.ticks, state := .zombie } = g (t'.proc cur) :=
    hg (t'.proc cur) .zombie (t'.proc cur).parent (int32 t'.ticks)
  rw [hmod t' cur _ hz, hr]

/-- The table has changed in what memory does not depend on. -/
theorem KernOk.sameMem (h : KernOk L strict lim own sh s) (hstate : ∀ i, (t.proc i).state = .unused ↔ (s.table.proc i).state = .unused)
    (hsz : ∀ i, (t.proc i).sz = (s.table.proc i).sz) (hd : ∀ i, (t.proc i).pgdir = (s.table.proc i).pgdir)
    (hk : ∀ i, (t.proc i).kstack = (s.table.proc i).kstack) : KernOk L strict lim own sh { s with table := t } where
  phys := h.phys
  lives i hi := by
    obtain ⟨d, k, hlive⟩ := h.lives i (mt (hstate i).mpr hi)
    exact ⟨d, k, (hd i).trans hlive.pgdir, (hk i).trans hlive.kstack, hlive.stack, (hsz i).trans_le hlive.size,
      (hsz i).symm ▸ hlive.space⟩
  idle i hi := h.idle i ((hstate i).mp hi)
  apart i j hi hj heq := h.apart i j (mt (hstate i).mpr hi) (mt (hstate j).mpr hj) (by rw [← hd, ← hd]; exact heq)
  regions := h.regions
  keys := h.keys
  counts := h.counts

theorem phase_free_iff (st : ProcState) : st.phase = .free ↔ st = .unused := by
  cases st <;> simp [ProcState.phase]

/-- `exit`. It panics only in init. -/
theorem exit_wp (h : KernOk L strict lim own sh s) (hused : (s.table.proc cur).state ≠ .unused) :
    wp (exit cur) (fun _ s' => KernInv L strict lim s') (fun e => e = .initExiting) s := by
  unfold exit
  simp only [wp_bind, wp_get, wp_ite, wp_throw, wp_onTable, wp_pure]
  refine ⟨fun _ => trivial, fun _ => ⟨own, sh, ?_⟩⟩
  have hclose : ∀ {β : Type} (g : Proc → β), (∀ p, g { p with ofile := fun _ => none, cwd := none } = g p) → ∀ i,
      g ((exitClose cur s.table).proc i) = g (s.table.proc i) := fun g hg i => by
    unfold exitClose
    by_cases hi : i = cur
    · rw [hi, modify_proc_self, hg]
    · rw [modify_proc_of_ne _ _ hi]
  refine h.sameMem (fun i => ?_) (fun i => ?_) (fun i => ?_) fun i => ?_
  · by_cases hic : i = cur
    · rw [hic]
      refine ⟨fun hno => ?_, fun hno => absurd hno hused⟩
      unfold exitTable at hno
      rw [modify_proc_self] at hno
      cases hno
    · have hphase := congrArg Life.phase (congrFun (life_exitTable cur (exitClose cur s.table)).1 i)
      rw [life_exitClose] at hphase
      simp only [if_neg hic, Table.life, Proc.life] at hphase
      rw [← phase_free_iff, hphase, phase_free_iff]
  · exact (exitTable_keeps Proc.sz (fun _ _ _ _ => rfl) cur _ i).trans
      (hclose Proc.sz (fun _ => rfl) i)
  · exact (exitTable_keeps Proc.pgdir (fun _ _ _ _ => rfl) cur _ i).trans
      (hclose Proc.pgdir (fun _ => rfl) i)
  · exact (exitTable_keeps Proc.kstack (fun _ _ _ _ => rfl) cur _ i).trans
      (hclose Proc.kstack (fun _ => rfl) i)

/-- A child is reaped: its kernel stack and its address space are freed, and its slot is given back. -/
theorem reapPages_wp (h : KernOk L strict lim own sh s) (hused : (s.table.proc i).state ≠ .unused) (hno : sh i = noShare) :
    wp (reapPages L (teardown i s.table)) (fun _ s' => KernInv L strict lim s') E s := by
  obtain ⟨d, k, hlive⟩ := h.lives i hused
  have htab : ∀ j, j ≠ i → (teardown i s.table).table.proc j = s.table.proc j := fun j hj => by
    simp [teardown, Table.modify, hj]
  have hgone : ((teardown i s.table).table.proc i).state = .unused := by simp [teardown]
  -- once the slot is given back nobody has the stack, and it can be freed
  have hloose : PhysOk L (update own k .loose) s.phys :=
    h.phys.relabel (by simp [hlive.stack]) (by simp [hlive.stack]) fun he => by cases he
  have hk1 := (h.unusedSlot i htab hgone hno).relabel (f := k) hloose (by simp [hlive.stack, Owner.UsedBy])
    (fun j hj he => hj (by rw [hlive.stack] at he; exact Owner.stack.inj he ▸ hgone)) (by simp [hlive.stack]) (fun _ he => by cases he)
  have hsp : Space strict (sh i) (update own k .loose) s.phys.mem d (pages (s.table.proc i).sz) :=
    hlive.space.relabel (by simp [hlive.stack, Owner.UsedBy])
  have hidem : update (update own k .loose) k .free = update own k .free :=
    Function.update_idem _ _ _
  unfold reapPages
  simp only [teardown, hlive.kstack, hlive.pgdir, wp_bind, wp_useFrame_some, wp_onPhys]
  refine kfree_wp h.phys (by simp [hlive.stack]) (by simp [hlive.stack]) fun p1 hp1 hmem _ => ?_
  have hl1 : ∀ D, Local D (update own k .loose) (update own k .free) s.phys.mem p1.mem := fun D => by
    have hl := Local.freed (show (update own k .loose k).Within D by simp [Owner.Within]) hmem
    rwa [hidem] at hl
  have hk2 := KernOk.free (s := { s with table := (teardown i s.table).table }) hk1 p1 (by simp)
    (by rw [hidem]; exact hp1) hmem
  rw [hidem] at hk2
  have hs1 := hsp.local (hl1 fun _ => False) not_false
  have hpriv1 : Private (update own k .free) p1.mem d 0 UPAGES := hs1.private le_rfl fun v _ _ => by rw [hno]; rfl
  refine wp_mono (freevm_wp hp1 hs1.toTables hpriv1) (fun _ p2 h2 => ?_) fun _ he => he
  obtain ⟨own2, hp2, hl2, -⟩ := h2
  refine ⟨own2, sh, hk2.keep i hp2 hl2 (fun j e hj hu he hd => ?_) (fun _ _ => rfl) rfl rfl (fun hu => absurd hgone hu)
    fun _ => hno⟩
  have hjt := htab j hj
  refine hj (h.apart j i ?_ hused ?_)
  · rw [← hjt]
    exact hu
  · rw [hlive.pgdir, ← hjt, ← hd]
    exact he

/-- A turn of a wait whose addresses are in user space. -/
theorem waitCall_wp {base : Nat} {w : WaitCall} (h : KernOk L strict lim own sh s) (hw : w.UserAddrs)
    (hpriv : ∀ i r, waitPass base w cur s.table = some (.reaped i r) → sh i = noShare) :
    wp (waitCall L base cur w) (fun _ s' => KernInv L strict lim s') E s := by
  unfold waitCall
  simp only [wp_bind, wp_get]
  rcases hpass : waitPass base w cur s.table with _ | r
  · unfold waitPass at hpass
    split at hpass
    · simp [reap_eq_teardown hw] at hpass
    · split at hpass <;> cases hpass
  · rcases waitPass_cases hw hpass with rfl | rfl | ⟨i, rfl, hz, -⟩
    · exact ⟨own, sh, h⟩
    · exact ⟨own, sh, h⟩
    · exact reapPages_wp h (by rw [hz]; intro he; cases he) (hpriv i _ hpass)

/-! ## Stores by the user -/

/-- A store writes the byte where the user may, and nothing elsewhere. -/
theorem userStore_cases {va : Nat} {b : UInt8} {Q : Int → Kern → Prop} (hd : (s.table.proc cur).pgdir = some d)
    (hyes : UserMapped s.phys.mem d (va / PGSIZE % VPAGES) →
      Q 0 { s with phys := s.phys.poke (frameAt s.phys.mem d (va / PGSIZE % VPAGES)) (va % PGSIZE) [b] })
    (hno : ¬ UserMapped s.phys.mem d (va / PGSIZE % VPAGES) → Q 0 s) : wp (userStore cur va b) Q E s := by
  have hdx : pdx va = va / PGSIZE % VPAGES / 1024 := by
    simp only [pdx, PGSIZE, VPAGES]
    omega
  have htx : ptx va = va / PGSIZE % VPAGES % 1024 := by
    simp only [ptx, PGSIZE, VPAGES]
    omega
  generalize va / PGSIZE % VPAGES = v at hdx htx hyes hno
  unfold userStore walkpgdir
  simp only [wp_bind, wp_get, hd, wp_onPhys, wp_ite, wp_pure, hdx, htx]
  refine ⟨fun hP => ?_, fun hP => ⟨(fun he => by cases he), fun _ => hno fun hm => ?_⟩⟩
  · have heq : s.phys.mem (pteFrame (s.phys.mem d (v / 1024))) (v % 1024) = pte s.phys.mem d v := by rw [pte, if_pos hP]
    simp only [heq, Bool.and_eq_true]
    exact ⟨hyes, hno⟩
  · have hm := hm.1
    rw [Mapped, pte, if_neg hP] at hm
    cases hm

/-- A store of the user stays in the user's pages. -/
theorem userStore_wp {va : Nat} {b : UInt8} (h : KernOk L strict lim own sh s) (hused : (s.table.proc cur).state ≠ .unused) :
    wp (userStore cur va b) (fun _ s' => KernInv L strict lim s') E s := by
  obtain ⟨d, k, hlive⟩ := h.lives cur hused
  refine userStore_cases hlive.pgdir (fun hm => ⟨own, sh, ?_⟩) fun _ => ⟨own, sh, h⟩
  have hv : va / PGSIZE % VPAGES < VPAGES := Nat.mod_lt _ (by decide)
  -- what the user may use is in the user part
  have hvU : va / PGSIZE % VPAGES < UPAGES := by
    by_contra hge
    have hno := hlive.space.guarded _ (Nat.le_of_not_lt hge) hv
    rw [hm.2] at hno
    cases hno
  exact h.written (h.phys.setPage _ _) (hlive.space.poke_local hvU hm.1 _ _)

end OsLab
