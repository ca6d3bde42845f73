import OsLab.Lemmas.ShortRuns

/-!
# Failed calls for shared memory

`sys_shmem` lets the process grow by a page and then copies the key's page to the old end of the process. The copy fails when the
old end lies inside a page that the user may not use (the guard page below the stack, or a page that is gone), and the call then
returns -1 with the process a page larger. Every other failure of `shmem` and `shmget` leaves the size, the mappings and the counts of
the regions as they were (`shm_failure_atomic_iff`).
-/

namespace OsLab

open Cmd

/-- A call of `shmem` or `shmget`. -/
inductive ShmCall where
  | shmem (a : Arg)
  | shmget (a : Arg)

/-- Its code. -/
def ShmCall.code (L : Layout) (cur : Slot) : ShmCall → KernM Int
  | .shmem a => sysShmem L cur a
  | .shmget a => sysShmget cur a

/-- The caller's size, the entries of the user pages that it has mapped, and the counts of the regions are the same. -/
structure SameShm (cur : Slot) (s s' : Kern) : Prop where
  size : (s'.table.proc cur).sz = (s.table.proc cur).sz
  pgdir : (s'.table.proc cur).pgdir = (s.table.proc cur).pgdir
  mapped : ∀ d, (s.table.proc cur).pgdir = some d → ∀ v < UPAGES, Mapped s.phys.mem d v ∨ Mapped s'.phys.mem d v →
    pte s'.phys.mem d v = pte s.phys.mem d v
  counts : ∀ r, (s'.regions r).refcnt = (s.regions r).refcnt

/-- If the call returns -1, all that is as before. -/
def AtomicFailure (L : Layout) (s : Kern) (cur : Slot) (c : ShmCall) : Prop :=
  ∀ s', c.code L cur s = .ok (-1, s') → SameShm cur s s'

/-- The process stays below the kernel with one page more, and there are free pages for it, for the page table that it may need
and for `more`. -/
def HasRoom (s : Kern) (cur : Slot) (more : Nat) : Prop :=
  (s.table.proc cur).sz + PGSIZE < KERNBASE ∧ ∀ d, (s.table.proc cur).pgdir = some d →
    1 + lacks s.phys.mem d (pages (s.table.proc cur).sz) + more ≤ s.phys.freelist.length

/-- The call comes to its `copyout`: it has a key, and there is room for the page of the key, at its first use, and for the page by
which the process grows. -/
def ShmemGrows (s : Kern) (cur : Slot) (a : Arg) : Prop :=
  ∃ key, a.bind (argIndex SHM_NKEYS) = some key ∧ HasRoom s cur (if s.shmPages key = none then 1 else 0)

/-- The old end of the process is a page boundary, or lies in a page that the user may use. -/
def EndOk (s : Kern) (cur : Slot) : Prop :=
  (s.table.proc cur).sz % PGSIZE = 0 ∨
    ∀ d, (s.table.proc cur).pgdir = some d → UserMapped s.phys.mem d ((s.table.proc cur).sz / PGSIZE)

/-- The copy of `shmem` goes to pages that the user may use, unless the call fails before it. -/
def CopyFits (s : Kern) (cur : Slot) : ShmCall → Prop
  | .shmget _ => True
  | .shmem a => EndOk s cur ∨ ¬ ShmemGrows s cur a

variable {L : Layout} {strict : Bool} {lim : Nat} {own : Own} {sh : Slot → Share} {s s' : Kern} {cur : Slot} {d f k : Frame}
  {E : Panic → Prop}

namespace ShmAtomicAux

theorem SameShm.refl : SameShm cur s s := ⟨rfl, rfl, fun _ _ _ _ _ => rfl, fun _ => rfl⟩

theorem SameShm.trans {s'' : Kern} (h : SameShm cur s s') (h' : SameShm cur s' s'') : SameShm cur s s'' where
  size := h'.size.trans h.size
  pgdir := h'.pgdir.trans h.pgdir
  mapped d hd v hv hm := by
    have h1 := h.mapped d hd v hv
    have h2 := h'.mapped d (h.pgdir.trans hd) v hv
    rcases hm with hm | hm
    · exact (h2 (Or.inl ((mapped_congr (h1 (Or.inl hm))).mpr hm))).trans (h1 (Or.inl hm))
    · exact (h2 (Or.inr hm)).trans (h1 (Or.inr ((mapped_congr (h2 (Or.inr hm))).mp hm)))
  counts r := (h'.counts r).trans (h.counts r)

/-- A call that only takes a page for a table changes nothing for the caller. -/
theorem SameShm.of_table (htab : s'.table = s.table) (hcounts : ∀ r, (s'.regions r).refcnt = (s.regions r).refcnt)
    (hpte : ∀ d, (s.table.proc cur).pgdir = some d → ∀ u < VPAGES, pte s'.phys.mem d u = pte s.phys.mem d u) : SameShm cur s s' :=
  ⟨by rw [htab], by rw [htab], fun d hd v hv _ => hpte d hd v (lt_VPAGES hv), hcounts⟩

/-- The page of a `shmem` key, taken and zeroed at its first use. -/
def shmemPage (a : Arg) : KernM (Option Frame) :=
  match a.bind (argIndex SHM_NKEYS) with
  | none => pure none
  | some key => do
    match (← get).shmPages key with
    | some f => pure (some f)
    | none =>
      match ← onPhys kalloc with
      | none => pure none
      | some f =>
        modify fun s => { s with phys := s.phys.fill f 0, shmPages := Function.update s.shmPages key (some f) }
        pure (some f)

theorem sysShmem_eq (a : Arg) : sysShmem L cur a = (do
    match ← shmemPage a with
    | none => pure (-1)
    | some f => shmemCopy L cur f) := by
  unfold sysShmem shmemPage
  cases a.bind (argIndex SHM_NKEYS) with
  | none => rfl
  | some key =>
    simp only [bind_assoc]
    refine bind_congr fun s => ?_
    cases s.shmPages key with
    | some f => rfl
    | none =>
      simp only [bind_assoc]
      refine bind_congr fun o => ?_
      cases o <;> rfl

/-- Getting the page of a key changes nothing for the caller, and says whether the call can go on. -/
structure PageReady (s : Kern) (cur : Slot) (a : Arg) (r : Option Frame) (s1 : Kern) : Prop where
  table : s1.table = s.table
  counts : ∀ r, (s1.regions r).refcnt = (s.regions r).refcnt
  pte : ∀ d, (s.table.proc cur).pgdir = some d → ∀ u < VPAGES, pte s1.phys.mem d u = pte s.phys.mem d u
  none : r = none → ¬ ShmemGrows s cur a
  some : ∀ f, r = some f → (ShmemGrows s cur a ↔ HasRoom s1 cur 0)

theorem shmemPage_wp (a : Arg) (h : KernOk L strict lim own sh s) (hused : (s.table.proc cur).state ≠ .unused) :
    wp (shmemPage a) (fun r s1 => (∃ own1, KernOk L strict lim own1 sh s1) ∧ PageReady s cur a r s1) E s := by
  unfold shmemPage
  split
  · rename_i hkey
    refine ⟨⟨own, h⟩, rfl, fun _ => rfl, fun _ _ _ _ => rfl, fun _ hgrows => ?_, fun f hf => by cases hf⟩
    obtain ⟨key, hk, -⟩ := hgrows
    cases hkey.symm.trans hk
  rename_i key hkey
  have hgrows : ShmemGrows s cur a ↔ HasRoom s cur (if s.shmPages key = none then 1 else 0) := by
    constructor
    · rintro ⟨key', hk, hroom⟩
      cases hkey.symm.trans hk
      exact hroom
    · exact fun hroom => ⟨key, hkey, hroom⟩
  simp only [wp_bind, wp_get]
  split
  · rename_i f hf
    rw [if_neg (by rw [hf]; exact Option.some_ne_none f)] at hgrows
    exact ⟨⟨own, h⟩, rfl, fun _ => rfl, fun _ _ _ _ => rfl, fun he => absurd he (Option.some_ne_none f), fun _ _ => hgrows⟩
  rename_i hno
  rw [if_pos hno] at hgrows
  obtain ⟨d, k, hlive⟩ := h.lives cur hused
  simp only [wp_bind, wp_onPhys]
  refine kalloc_wp h.phys (fun hl => ?_) fun f p1 hf hm hl hp1 => ?_
  · refine ⟨⟨own, h⟩, rfl, fun _ => rfl, fun _ _ _ _ => rfl, fun _ hroom => ?_, fun f hf => by cases hf⟩
    have hlen := (hgrows.mp hroom).2 d hlive.pgdir
    rw [hl, List.length_nil] at hlen
    omega
  have hmem : ∀ g, (own g).TreeOf d → (p1.fill f 0).mem g = s.phys.mem g := fun g hg => by
    have hgf : g ≠ f := fun he => by
      rw [he, hf] at hg
      exact hg
    rw [fill_mem_of_ne hgf, hm]
  have hdir : lacks (p1.fill f 0).mem d (pages (s.table.proc cur).sz) = lacks s.phys.mem d (pages (s.table.proc cur).sz) :=
    lacks_congr (hmem d (by rw [hlive.space.dir]; rfl))
  have hlen : s.phys.freelist.length = (p1.fill f 0).freelist.length + 1 := by rw [hl]; rfl
  simp only [wp_bind, wp_modify, wp_pure]
  refine ⟨⟨_, h.newKey hf hm hp1⟩, rfl, fun _ => rfl, fun e he u hu => ?_, fun he => absurd he (Option.some_ne_none f),
    fun _ _ => hgrows.trans ?_⟩
  · obtain rfl : d = e := hlive.pgdir_eq he
    exact hlive.space.pte_congr hmem hu
  · refine and_congr_right fun _ => forall_congr' fun e => forall_congr' fun he => ?_
    obtain rfl : d = e := hlive.pgdir_eq he
    dsimp only
    omega

/-- `growproc` by a page, when there is room, adds a page that the user may use; otherwise it changes nothing for the caller. -/
theorem growproc_page (h : KernOk L strict lim own sh s) (hlim : lim ≤ KERNBASE)
    (hlive : Lives strict lim own (sh cur) s.phys.mem cur (s.table.proc cur) d k) :
    wp (growproc L cur PGSIZE) (fun r s' =>
      r = -1 ∧ ¬ HasRoom s cur 0 ∧ SameShm cur s s' ∨
      r = 0 ∧ HasRoom s cur 0 ∧ ∃ own', Space strict (sh cur) own' s'.phys.mem d (pages ((s.table.proc cur).sz + PGSIZE)) ∧
        s'.table = s.table.modify cur (fun q => { q with sz := (s.table.proc cur).sz + PGSIZE }) ∧
        (∀ u < pages (s.table.proc cur).sz, pte s'.phys.mem d u = pte s.phys.mem d u) ∧
        UserMapped s'.phys.mem d (pages (s.table.proc cur).sz)) E s := by
  have hsz := hlive.size.trans hlim
  have hnew : uintOf ((s.table.proc cur).sz + (PGSIZE : Int)) = (s.table.proc cur).sz + PGSIZE := by
    simp only [uintOf, PGSIZE, KERNBASE] at *
    omega
  have hone : pages ((s.table.proc cur).sz + PGSIZE) = pages (s.table.proc cur).sz + 1 := by
    simp only [pages, PGSIZE]
    omega
  refine wp_mono (growproc_grow h.phys hlive hlim (by decide)) (fun r s1 h1 => ?_) fun _ he => he
  rw [hnew] at h1
  obtain ⟨own1, p1, -, -, hkeep, ⟨rfl, rfl, hs1, hshort⟩ | ⟨rfl, z, -, hz, hz', hs1, huser, hroom, -, rfl⟩⟩ := h1
  · refine Or.inl ⟨rfl, fun hroom => ?_, rfl, rfl, fun e he v hv hm => ?_, fun _ => rfl⟩
    · have hlt := (hshort (Nat.add_pos_right _ (by decide)) hroom.1).2 hone
      have hle := hroom.2 d hlive.pgdir
      omega
    · obtain rfl : d = e := hlive.pgdir_eq he
      exact hkeep v (hm.elim (fun hm => (hlive.space.page v hv hm).1) fun hm => (hs1.page v hv hm).1)
  · obtain ⟨rfl, hK⟩ : z = (s.table.proc cur).sz + PGSIZE ∧ z < KERNBASE := by
      simp only [PGSIZE] at *
      omega
    have hlast : pages (s.table.proc cur).sz < pages ((s.table.proc cur).sz + PGSIZE) := hone ▸ Nat.lt_succ_self _
    refine Or.inr ⟨rfl, ⟨hK, fun e he => ?_⟩, own1, hs1, rfl, hkeep, huser _ le_rfl hlast⟩
    obtain rfl : d = e := hlive.pgdir_eq he
    exact hroom hlast

/-- `copyout` to a page that the user may not use fails at once. -/
theorem copyout_refused {va : Nat} {bs : List UInt8} {p : Phys} {Q : Int → Phys → Prop} (hbs : 0 < bs.length)
    (hva : va / PGSIZE < VPAGES) (hP : hasP (p.mem d (va / PGSIZE / 1024)) = true) (hno : ¬ UserMapped p.mem d (va / PGSIZE))
    (hQ : Q (-1) p) : wp (copyout d va bs) Q E p := by
  unfold copyout
  obtain ⟨n, hn⟩ := Nat.exists_eq_succ_of_ne_zero hbs.ne'
  rw [hn]
  unfold copyoutLoop
  simp only [wp_ite, wp_pure, wp_bind]
  exact ⟨fun h => absurd h hbs.ne', fun _ => uva2ka_wp hva hP (fun _ => hQ) fun hu => absurd hu hno⟩

/-- A failed call is atomic, or it has returned -1 with the process grown. -/
def Outcome (s : Kern) (cur : Slot) (fits : Prop) (r : Int) (s' : Kern) : Prop :=
  fits ∧ (r = -1 → SameShm cur s s') ∨ ¬ fits ∧ r = -1 ∧ (s'.table.proc cur).sz = (s.table.proc cur).sz + PGSIZE

/-- What `shmem` does once it has the page. -/
theorem shmemCopy_wp (h : KernOk L strict lim own sh s) (hlim : lim ≤ KERNBASE) (hused : (s.table.proc cur).state ≠ .unused) :
    wp (shmemCopy L cur f) (Outcome s cur (EndOk s cur ∨ ¬ HasRoom s cur 0)) E s := by
  obtain ⟨d, k, hlive⟩ := h.lives cur hused
  have hsz := hlive.size.trans hlim
  unfold shmemCopy
  simp only [wp_bind, wp_get]
  refine wp_mono (growproc_page h hlim hlive) (fun r s1 h1 => ?_) fun _ he => he
  obtain ⟨rfl, hno, hsame⟩ | ⟨rfl, hroom, own1, hs1, htab, hkeep, hnew⟩ := h1
  · exact Or.inl ⟨Or.inr hno, fun _ => hsame⟩
  rw [if_neg (by decide)]
  have hp1 : s1.table.proc cur = { s.table.proc cur with sz := (s.table.proc cur).sz + PGSIZE } := by rw [htab, modify_proc_self]
  simp only [wp_bind, wp_get, hp1, hlive.pgdir, wp_useFrame_some, wp_onPhys]
  have hlen : (pageBytes (s1.phys.mem f)).length = PGSIZE := by simp [pageBytes]
  generalize pageBytes (s1.phys.mem f) = bs at hlen ⊢
  -- an end inside a page is in the last of the old pages
  have hlast : ¬ (s.table.proc cur).sz % PGSIZE = 0 → (s.table.proc cur).sz / PGSIZE < pages (s.table.proc cur).sz := fun hal => by
    simp only [pages, PGSIZE] at *
    omega
  by_cases hend : EndOk s cur
  · have hfit : (s.table.proc cur).sz + bs.length ≤ pages ((s.table.proc cur).sz + PGSIZE) * PGSIZE := by
      rw [hlen]
      simp only [pages, PGSIZE]
      omega
    refine wp_mono (copyout_copied hs1 hfit) (fun r2 p2 h2 => ?_) fun _ he => he
    -- the copy goes to the page of the old end and to the new page
    have hr2 : r2 = 0 := h2.ok fun v hv1 hv2 => by
      rw [hlen] at hv2
      by_cases hv : v = pages (s.table.proc cur).sz
      · exact hv ▸ hnew
      · obtain ⟨rfl, hal⟩ : v = (s.table.proc cur).sz / PGSIZE ∧ ¬ (s.table.proc cur).sz % PGSIZE = 0 := by
          simp only [pages, PGSIZE] at *
          omega
        rw [userMapped_congr (hkeep _ (hlast hal))]
        exact hend.resolve_left hal d hlive.pgdir
    rw [hr2, if_neg (by decide)]
    refine Or.inl ⟨Or.inl hend, fun hr => ?_⟩
    rw [int32_of_lt (by omega) (by have := hroom.1; simp only [KERNBASE] at *; omega)] at hr
    omega
  · obtain ⟨hal, hum⟩ := not_or.mp hend
    have hlt := (hlast hal).trans_le (pages_mono (Nat.le_add_right _ PGSIZE))
    refine copyout_refused (by rw [hlen]; decide) (lt_VPAGES (hlt.trans_le hs1.le)) (hs1.reach _ hlt) (fun hu => hum fun e he => ?_) ?_
    · obtain rfl : d = e := hlive.pgdir_eq he
      exact (userMapped_congr (hkeep _ (hlast hal))).mp hu
    · rw [if_pos (by decide)]
      exact Or.inr ⟨not_or.mpr ⟨hend, not_not.mpr hroom⟩, rfl, by dsimp only; rw [hp1]⟩

/-- What `shmem` does. -/
theorem sysShmem_outcome (a : Arg) (h : KernOk L strict lim own sh s) (hlim : lim ≤ KERNBASE)
    (hused : (s.table.proc cur).state ≠ .unused) : wp (sysShmem L cur a) (Outcome s cur (CopyFits s cur (.shmem a))) E s := by
  rw [sysShmem_eq]
  refine wp_call (shmemPage_wp a h hused) fun r s1 h1 => ?_
  obtain ⟨⟨own1, hk1⟩, h1⟩ := h1
  have hsame := SameShm.of_table h1.table h1.counts h1.pte
  rcases r with _ | f
  · exact Or.inl ⟨Or.inr (h1.none rfl), fun _ => hsame⟩
  have hend : EndOk s1 cur ↔ EndOk s cur := by
    unfold EndOk
    rw [h1.table]
    refine or_congr_right' fun hal => forall_congr' fun e => forall_congr' fun he => ?_
    obtain ⟨d, k, hlive⟩ := h.lives cur hused
    refine userMapped_congr (h1.pte e he _ (lt_VPAGES (lt_of_lt_of_le ?_ hlive.space.le)))
    simp only [pages, PGSIZE] at *
    omega
  refine wp_mono (shmemCopy_wp hk1 hlim (by rw [h1.table]; exact hused)) (fun r s2 h2 => ?_) fun _ he => he
  rw [Outcome, hend, ← h1.some f rfl, h1.table] at h2
  exact h2.imp (And.imp_right fun h2 hr => SameShm.trans hsame (h2 hr)) id

/-- A failed `shmget` is atomic. -/
theorem sysShmget_atomic (a : Arg) (h : KernOk L strict lim own sh s) (hlim : lim ≤ KERNBASE)
    (hused : (s.table.proc cur).state ≠ .unused) :
    wp (sysShmget cur a) (fun r s' => r = -1 → SameShm cur s s') (fun _ => True) s := by
  unfold sysShmget
  split
  · exact fun _ => SameShm.refl
  obtain ⟨d, k, hlive⟩ := h.lives cur hused
  refine wp_mono (shmget_wp _ h hlim hused hlive.pgdir) (fun r s1 h1 hr => ?_) fun _ _ => trivial
  obtain ⟨-, rfl, -⟩ | ⟨j, s0, own0, k0, page, -, -, hready, -, -, -, ⟨-, rfl, -⟩ | ⟨hr0, -⟩⟩ := h1
  · exact SameShm.refl
  · refine SameShm.of_table hready.table hready.counts fun e he u hu => ?_
    obtain rfl : d = e := hlive.pgdir_eq he
    exact hready.pte u hu
  · omega

end ShmAtomicAux

open ShmAtomicAux

/-- In every run that keeps memory in order, a failed `shmem` or `shmget` leaves the caller's size, its mappings and the counts of the
regions as they were exactly when the copy of `shmem` fits. -/
theorem shm_failure_atomic_iff {base : Nat} (h : (memSys L base).Reach (MemOk L base) s) (hact : (s.table.proc cur).Active)
    (c : ShmCall) : AtomicFailure L s cur c ↔ CopyFits s cur c := by
  obtain ⟨own, sh, hk⟩ := kernInv_of_memOk h
  cases c with
  | shmget a => exact ⟨fun _ => trivial, fun _ s' hrun => wp_ok (sysShmget_atomic a hk le_rfl hact.1) hrun rfl⟩
  | shmem a =>
    have hwp := sysShmem_outcome (E := fun _ => False) a hk le_rfl hact.1
    constructor
    · -- where the copy does not fit, the process has grown although the call returns -1
      intro hatomic
      obtain ⟨r, s', hrun, ⟨hfits, -⟩ | ⟨-, rfl, hsz⟩⟩ := exists_of_wp hwp
      · exact hfits
      · have hsame := (hatomic s' hrun).size
        simp only [PGSIZE] at hsz
        omega
    · intro hfits s' hrun
      obtain ⟨-, hsame⟩ | ⟨hno, -⟩ := wp_ok hwp hrun
      · exact hsame rfl
      · exact absurd hfits hno

/-! ## An end in the guard page -/

namespace ShmAtomicAux

/-- The first process becomes the program of one page, which gives up 5000 bytes: it ends inside its guard page, and its first page is
there to call from. -/
theorem end_in_guard_page (base : Nat) : ∃ s d, (memSys sampleLayout base).Reach (MemOk sampleLayout base) s ∧
    (s.table.proc 0).Active ∧ (s.table.proc 0).sz = 7288 ∧ (s.table.proc 0).pgdir = some d ∧ UserMapped s.phys.mem d 0 ∧
    ¬ CopyFits s 0 (.shmem (some 0)) := by
  obtain ⟨s0, own0, hb, hk0, -, hact, -, d0, -, hlen⟩ := boot_kernOk sampleBoot
  have hnone : ∀ r, (s0.regions r).page = none := by
    obtain ⟨k, d, p, -, rfl⟩ := hb
    exact fun _ => rfl
  have hshares : ∀ (s : Kern) lo hi, (∀ r, (s.regions r).page = none) → SharesNone s 0 lo hi := fun s lo hi hno e _ v _ _ _ r hr => by
    rw [hno r] at hr
    cases hr
  obtain ⟨s1, d, hst1, ⟨own1, sh1, hk1⟩, hact1, hsz1, hd1, hnone1, h0, h1, hlen1⟩ :=
    exec_guard base hk0 (by decide) le_rfl hact hnone (by omega)
  have hr0 : (memSys sampleLayout base).Reach (MemOk sampleLayout base) s0 := .init ⟨_, hb⟩
  have hok1 : MemOk sampleLayout base s0 ⟨0, .exec ⟨[], some guardFile, []⟩⟩ :=
    ⟨fun _ _ _ _ _ => hshares _ _ _ hnone, fun _ ha => by cases ha⟩
  have hok2 : MemOk sampleLayout base s1 ⟨0, .sbrk (some (-5000))⟩ := ⟨fun _ => hshares _ _ _ hnone1, trivial⟩
  obtain ⟨d', k, hlive⟩ := hk1.lives 0 hact1.1
  obtain rfl : d' = d := hlive.pgdir_eq hd1
  have hnew : 7288 = uintOf ((s1.table.proc 0).sz + (-5000)) := by rw [hsz1]; rfl
  obtain ⟨own2, p2, hu, hst2⟩ := sbrk_step base (-5000) hk1.phys hact1 hlive (by decide) (by decide) hnew (by rw [hsz1]; decide)
    fun v h1 h2 => hk1.share_none (hshares _ _ _ hnone1) h1 h2
  rw [if_neg (by decide)] at hst2
  have hlen2 := hu.length_le hk1.phys
  have hpte : ∀ u < 2, pte p2.mem d' u = pte s1.phys.mem d' u := fun u hu' =>
    hu.others u (lt_trans hu' (by decide)) (Or.inl (hu'.trans_le (by decide)))
  refine ⟨_, d', (hr0.step _ hok1 hst1).step _ hok2 hst2, by dsimp only; rwa [modify_proc_self], by simp, by simpa using hd1,
    (userMapped_congr (hpte 0 (by decide))).mpr h0, not_or.mpr ⟨not_or.mpr ⟨by simp [PGSIZE], fun hum => h1 ?_⟩, not_not.mpr ?_⟩⟩
  · exact (userMapped_congr (hpte 1 (by decide))).mp (by simpa [PGSIZE] using hum d' (by simpa using hd1))
  · refine ⟨0, rfl, by simp [PGSIZE, KERNBASE], fun e _ => ?_⟩
    have hlack : ∀ m v, lacks m e v ≤ 1 := fun m v => by
      unfold lacks
      split <;> decide
    have hle := hlack p2.mem (pages 7288)
    dsimp only
    simp only [modify_proc_self]
    split <;> omega

end ShmAtomicAux

/-- The program has given up its stack and ends inside its guard page, with its first page to call from. Then `shmem(0)` returns -1,
and the size is 11384. -/
theorem failed_shmem_grows : ∃ s s' d, (memSys sampleLayout 0x80112d54).Reachable s ∧ (s.table.proc 0).Active ∧
    (s.table.proc 0).pgdir = some d ∧ UserMapped s.phys.mem d 0 ∧ sysShmem sampleLayout 0 (some 0) s = .ok (-1, s') ∧
    (s.table.proc 0).sz = 7288 ∧ (s'.table.proc 0).sz = 11384 := by
  obtain ⟨s, d, hr, hact, hsz, hd, h0, hno⟩ := end_in_guard_page 0x80112d54
  obtain ⟨own, sh, hk⟩ := kernInv_of_memOk hr
  obtain ⟨r, s', hrun, ⟨hfits, -⟩ | ⟨-, rfl, hsz'⟩⟩ := exists_of_wp (sysShmem_outcome (some 0) hk le_rfl hact.1)
  · exact absurd hfits hno
  · exact ⟨s, s', d, hr.mono fun _ _ _ => trivial, hact, hd, h0, hrun, hsz, by rw [hsz', hsz]; rfl⟩

/-- There a failure of `shmem` is not atomic, and one of `shmget` is. -/
theorem shm_failure_guard_page : ∃ s, (memSys sampleLayout 0x80112d54).Reach (MemOk sampleLayout 0x80112d54) s ∧
    (s.table.proc 0).Active ∧ ¬ AtomicFailure sampleLayout s 0 (.shmem (some 0)) ∧ AtomicFailure sampleLayout s 0 (.shmget (some 0)) := by
  obtain ⟨s, d, hr, hact, -, -, -, hno⟩ := end_in_guard_page 0x80112d54
  exact ⟨s, hr, hact, fun hatomic => hno ((shm_failure_atomic_iff hr hact _).mp hatomic),
    (shm_failure_atomic_iff hr hact (.shmget (some 0))).mpr trivial⟩

end OsLab
