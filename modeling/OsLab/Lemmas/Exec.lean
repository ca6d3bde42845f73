import OsLab.Exec
import OsLab.Lemmas.VmBuild

/-!
# What exec builds

Writing into an address space (`copyout`, `loaduvm`) and building the image of a program. Every path of `exec` to its commit
leaves an address space with all the pages that its size says; every path to `bad` leaves nothing.

An argument string longer than `STRMAX` bytes is excluded: it would move the stack pointer down past address 0 into the hole
below the devices, where `uva2ka` has no page-table entry to look at. One that is shorter wraps into the devices, which the
user may not write, and `exec` fails.
-/

namespace OsLab

open Cmd

variable {L : Layout} {strict : Bool} {sh sh' : Share} {own own' own'' : Own} {p p' p'' : Phys} {d f : Frame} {v n : Nat}
  {E : Panic → Prop} {turns va sz sp : Nat} {bs : List UInt8} {file : Nat → Nat → List UInt8} {argv : List (List UInt8)}

/-! ## Writing into an address space -/

/-- A user page that is mapped is not one that only the kernel writes. -/
theorem Space.not_kernelOnly {m : Mem} (h : Space strict sh own m d n) (hv : v < UPAGES) (hm : Mapped m d v) :
    ¬ (own (frameAt m d v)).KernelOnly := by
  rw [(h.page v hv hm).2]
  exact sh.not_kernelOnly d v

/-- Writing a user page leaves every address space as it is. -/
theorem Space.poke_local (h : Space strict sh own p.mem d n) (hv : v < UPAGES) (hm : Mapped p.mem d v) (off : Nat)
    (bs : List UInt8) : Local (fun _ => False) own own p.mem (p.poke (frameAt p.mem d v) off bs).mem := by
  refine Local.of_mem fun g hg => Or.inr ?_
  have hgf : g = frameAt p.mem d v := by
    by_contra hne
    exact hg (poke_mem_of_ne hne)
  rw [hgf]
  exact h.not_kernelOnly hv hm

/-- When only user pages have been written, the page tables are as they were. -/
theorem Space.pte_local (hs : Space strict sh own p.mem d n) (hl : Local (fun _ => False) own own p.mem p'.mem) (hv : v < VPAGES) :
    pte p'.mem d v = pte p.mem d v :=
  hs.pte_congr (fun g hg => hl.mem g (hg.usedBy.not_within not_false) hg.kernelOnly) hv

/-- When only user pages have been written, the page directory is as it was. -/
theorem Space.absent_local (hs : Space strict sh own p.mem d n) (hl : Local (fun _ => False) own own p.mem p'.mem) :
    absent p'.mem d = absent p.mem d :=
  absent_congr (hl.mem d (by rw [hs.dir]; exact not_false) (by rw [hs.dir]; trivial))

/-- The flags of a page have changed. -/
theorem Space.flags {m m' : Mem} {w : Nat} (h : Space strict sh own m d n) (hv : v < UPAGES) (ht : Tables own m' d)
    (hd : m' d = m d) (hpte : ∀ u < VPAGES, pte m' d u = if u = v then w else pte m d u)
    (hP : hasP w = hasP (pte m d v)) (hF : pteFrame w = pteFrame (pte m d v)) : Space strict sh own m' d n := by
  have hmap : ∀ u < VPAGES, (Mapped m' d u ↔ Mapped m d u) ∧ frameAt m' d u = frameAt m d u := fun u hu => by
    unfold Mapped frameAt
    rw [hpte u hu]
    by_cases huv : u = v
    · rw [if_pos huv, huv, hP, hF]
      exact ⟨Iff.rfl, rfl⟩
    · rw [if_neg huv]
      exact ⟨Iff.rfl, rfl⟩
  refine ⟨ht, h.le, fun u hu hm => ?_, fun u r hr => ?_, fun u hu => ?_, fun hs u hu => ?_, ?_, fun u h1 h2 => ?_,
    fun u h1 h2 => ?_⟩
  · rw [(hmap u (lt_VPAGES hu)).2]
    exact h.page u hu ((hmap u (lt_VPAGES hu)).1.mp hm)
  · obtain ⟨hu, hm⟩ := h.shows u r hr
    exact ⟨hu, (hmap u (lt_VPAGES hu)).1.mpr hm⟩
  · rw [hd]
    exact h.reach u hu
  · exact (hmap u (lt_VPAGES (hu.trans_le h.le))).1.mpr (h.full hs u hu)
  · exact (hmap _ UPAGES_lt).1.mpr h.kern
  · rw [hd]
    exact h.dev u h1 h2
  · rw [hpte u h2, if_neg (hv.trans_le h1).ne']
    exact h.guarded u h1 h2

/-- `clearpteu` clears the flag of that entry, and changes nothing else. -/
theorem clearpteu_wp (hp : PhysOk L own p) (hs : Space strict sh own p.mem d n) (hv : v < n) :
    wp (clearpteu d (v * PGSIZE))
      (fun _ p' => PhysOk L own p' ∧ Space strict sh own p'.mem d n ∧ Local (· = d) own own p.mem p'.mem ∧
        p'.freelist = p.freelist ∧ p'.mem d = p.mem d ∧ hasU (pte p'.mem d v) = false ∧
        ∀ u < VPAGES, u ≠ v → pte p'.mem d u = pte p.mem d u) E p := by
  have hvU := hv.trans_le hs.le
  have hP := hs.reach v hv
  unfold clearpteu
  simp only [wp_bind]
  refine walkpgdir_read (lt_VPAGES hvU) (fun _ => ?_) fun h => absurd hP (by rw [h]; decide)
  have heq : p.mem (pteFrame (p.mem d (v / 1024))) (v % 1024) = pte p.mem d v := by rw [pte, if_pos hP]
  simp only [wp_modify, heq]
  obtain ⟨hw, hd, hpte⟩ := Walked.set hp hs.toTables (lt_VPAGES hvU) (pte p.mem d v - pte p.mem d v / 4 % 2 * PTE_U) hP
  refine ⟨hw.phys, hs.flags hvU hw.tables hd hpte ?_ ?_, hw.near, rfl, hd, ?_, fun u hu hne => by rw [hpte u hu, if_neg hne]⟩
  · have h : (pte p.mem d v - pte p.mem d v / 4 % 2 * 4) % 2 = pte p.mem d v % 2 := by omega
    simp only [hasP, PTE_U, h]
  · have h : (pte p.mem d v - pte p.mem d v / 4 % 2 * 4) / 4096 = pte p.mem d v / 4096 := by omega
    exact h
  · have h : (pte p.mem d v - pte p.mem d v / 4 % 2 * 4) / 4 % 2 ≠ 1 := by omega
    rw [hpte v (lt_VPAGES hvU), if_pos rfl]
    exact decide_eq_false h

/-- The kernel reads a page that the user may use. -/
theorem uva2ka_wp {Q : Option Frame → Phys → Prop} (hv : v < VPAGES) (hP : hasP (p.mem d (v / 1024)) = true)
    (hnone : ¬ UserMapped p.mem d v → Q none p) (hsome : UserMapped p.mem d v → Q (some (frameAt p.mem d v)) p) :
    wp (uva2ka d (v * PGSIZE)) Q E p := by
  unfold uva2ka
  simp only [wp_bind]
  refine walkpgdir_read hv (fun _ => ?_) fun h => absurd hP (by rw [h]; decide)
  have heq : p.mem (pteFrame (p.mem d (v / 1024))) (v % 1024) = pte p.mem d v := by rw [pte, if_pos hP]
  simp only [wp_bind, wp_get, wp_ite, wp_pure, heq, Bool.and_eq_true]
  exact ⟨hsome, hnone⟩

/-- Where `copyout` may be asked to write: inside the pages of the process, or in the devices. -/
def CopyOk (n va len : Nat) : Prop := va + len ≤ n * PGSIZE ∨ DEVSPACE ≤ va ∧ va < 2 ^ 32

/-- The copy stays in the user's pages. -/
theorem copyoutLoop_wp (hp : PhysOk L own p) (hs : Space strict sh own p.mem d n) (hva : CopyOk n va bs.length)
    (hturns : bs.length ≤ turns) :
    wp (copyoutLoop d turns va bs)
      (fun r p' => PhysOk L own p' ∧ Local (fun _ => False) own own p.mem p'.mem ∧
        (bs ≠ [] → 0 ≤ r → va + bs.length ≤ n * PGSIZE)) E p := by
  induction turns generalizing va bs p with
  | zero =>
    have hnil : bs = [] := List.length_eq_zero_iff.mp (Nat.le_zero.mp hturns)
    exact ⟨hp, Local.refl, fun h => absurd hnil h⟩
  | succ turns ih =>
    unfold copyoutLoop
    simp only [wp_ite, wp_pure]
    refine ⟨fun h => ⟨hp, Local.refl, fun h' => absurd (List.length_eq_zero_iff.mp h) h'⟩, fun hlen => ?_⟩
    have hrd : pgRoundDown va = va / PGSIZE * PGSIZE := rfl
    rw [hrd]
    simp only [wp_bind]
    rcases hva with hva | ⟨h1, h2⟩
    · have hv : va / PGSIZE < n := by
        simp only [PGSIZE] at *
        omega
      have hvU := hv.trans_le hs.le
      refine uva2ka_wp (lt_VPAGES hvU) (hs.reach _ hv) (fun _ => ⟨hp, Local.refl, fun _ h => absurd h (by decide)⟩) fun hm => ?_
      have hl := hs.poke_local hvU hm.1 (va - va / PGSIZE * PGSIZE)
        (bs.take (min (PGSIZE - (va - va / PGSIZE * PGSIZE)) bs.length))
      simp only [wp_bind, wp_modify, u32_next hvU]
      refine wp_mono (ih (hp.setPage _ _) (hs.local hl not_false) (Or.inl ?_) ?_) (fun r p1 h1 => ?_) fun _ he => he
      · simp only [List.length_drop, PGSIZE] at *
        omega
      · simp only [List.length_drop, PGSIZE] at *
        omega
      · exact ⟨h1.1, hl.trans h1.2.1, fun _ _ => hva⟩
    · have hv : DEVPAGE ≤ va / PGSIZE := Nat.div_le_div_right h1
      have hv2 : va / PGSIZE < VPAGES := by
        simp only [VPAGES, PGSIZE]
        omega
      refine uva2ka_wp hv2 (hs.dev _ hv hv2) (fun _ => ⟨hp, Local.refl, fun _ h => absurd h (by decide)⟩) fun hu => ?_
      have hno := hs.guarded _ ((show UPAGES ≤ DEVPAGE by decide).trans hv) hv2
      rw [hu.2] at hno
      cases hno

/-- `copyout`. -/
theorem copyout_wp (hp : PhysOk L own p) (hs : Space strict sh own p.mem d n) (hva : CopyOk n va bs.length) :
    wp (copyout d va bs)
      (fun r p' => PhysOk L own p' ∧ Local (fun _ => False) own own p.mem p'.mem ∧
        (bs ≠ [] → 0 ≤ r → va + bs.length ≤ n * PGSIZE)) E p :=
  copyoutLoop_wp hp hs hva le_rfl

/-- A byte of a page into which bytes have been written. -/
theorem byteOf_pokePage (page : Nat → Nat) (off : Nat) (bs : List UInt8) (j : Nat) :
    byteOf (pokePage page off bs) j = if off ≤ j then (bs[j - off]?).getD (byteOf page j) else byteOf page j := by
  set g : Nat → UInt8 := fun j => if off ≤ j then (bs[j - off]?).getD (byteOf page j) else byteOf page j with hg
  have hword : pokePage page off bs (j / 4) = (g (4 * (j / 4))).toNat + 256 * (g (4 * (j / 4) + 1)).toNat +
      256 ^ 2 * (g (4 * (j / 4) + 2)).toNat + 256 ^ 3 * (g (4 * (j / 4) + 3)).toNat := rfl
  have hlt : ∀ i, (g i).toNat < 256 := fun i => UInt8.toNat_lt _
  have h0 := hlt (4 * (j / 4))
  have h1 := hlt (4 * (j / 4) + 1)
  have h2 := hlt (4 * (j / 4) + 2)
  have h3 := hlt (4 * (j / 4) + 3)
  change byteOf (pokePage page off bs) j = g j
  refine UInt8.toNat_inj.mp ?_
  unfold byteOf
  rw [hword, UInt8.toNat_ofNat']
  rcases show j % 4 = 0 ∨ j % 4 = 1 ∨ j % 4 = 2 ∨ j % 4 = 3 by omega with hm | hm | hm | hm
  · rw [show g j = g (4 * (j / 4)) from congrArg g (by omega), hm]
    omega
  · rw [show g j = g (4 * (j / 4) + 1) from congrArg g (by omega), hm]
    omega
  · rw [show g j = g (4 * (j / 4) + 2) from congrArg g (by omega), hm]
    omega
  · rw [show g j = g (4 * (j / 4) + 3) from congrArg g (by omega), hm]
    omega

/-- Zeros written into a page. -/
theorem byteOf_poke_zero (hbs : ∀ b ∈ bs, b = 0) (page : Nat → Nat) (off j : Nat) :
    byteOf (pokePage page off bs) j = if off ≤ j ∧ j < off + bs.length then 0 else byteOf page j := by
  rw [byteOf_pokePage]
  by_cases hle : off ≤ j
  · by_cases hlt : j < off + bs.length
    · have hj : j - off < bs.length := by omega
      rw [if_pos hle, if_pos ⟨hle, hlt⟩, List.getElem?_eq_getElem hj, Option.getD_some]
      exact hbs _ (List.getElem_mem hj)
    · rw [if_pos hle, if_neg fun h => hlt h.2, List.getElem?_eq_none (by omega), Option.getD_none]
  · rw [if_neg hle, if_neg fun h => hle h.1]

/-- What `copyout` to pages of the process comes to: the page tables and the free list are as they were, and it returns 0 if the
user may use all the pages. If the bytes are zeros, what was zero still is, and the bytes read back as zero. -/
structure Copied (d : Frame) (p : Phys) (va : Nat) (bs : List UInt8) (r : Int) (p' : Phys) : Prop where
  freelist : p'.freelist = p.freelist
  pte : ∀ u < VPAGES, pte p'.mem d u = pte p.mem d u
  zero : (∀ b ∈ bs, b = 0) → ∀ g j, byteOf (p.mem g) j = 0 → byteOf (p'.mem g) j = 0
  read : (∀ b ∈ bs, b = 0) → 0 ≤ r → ∀ k < bs.length, userByte p'.mem d (va + k) = some 0
  ok : (∀ v, va / PGSIZE ≤ v → v * PGSIZE < va + bs.length → UserMapped p.mem d v) → r = 0

/-- It succeeds if all of them may be used. -/
theorem copyoutLoop_copied (hs : Space strict sh own p.mem d n) (hva : va + bs.length ≤ n * PGSIZE) (hturns : bs.length ≤ turns) :
    wp (copyoutLoop d turns va bs) (Copied d p va bs) E p := by
  induction turns generalizing va bs p with
  | zero => exact ⟨rfl, fun _ _ => rfl, fun _ _ _ h => h, fun _ _ k hk => by omega, fun _ => rfl⟩
  | succ turns ih =>
    unfold copyoutLoop
    simp only [wp_ite, wp_pure]
    refine ⟨fun h => ⟨rfl, fun _ _ => rfl, fun _ _ _ h => h, fun _ _ k hk => by omega, fun _ => rfl⟩, fun hlen => ?_⟩
    have hrd : pgRoundDown va = va / PGSIZE * PGSIZE := rfl
    have hoff : va - va / PGSIZE * PGSIZE = va % PGSIZE := by
      have := Nat.div_add_mod va PGSIZE
      rw [Nat.mul_comm] at this
      omega
    rw [hrd]
    simp only [wp_bind, hoff]
    have hv : va / PGSIZE < n := by
      simp only [PGSIZE] at *
      omega
    have hvU := hv.trans_le hs.le
    refine uva2ka_wp (lt_VPAGES hvU) (hs.reach _ hv) (fun hno => ?_) fun hm => ?_
    · refine ⟨rfl, fun _ _ => rfl, fun _ _ _ h => h, fun _ h => absurd h (by decide), fun hall => absurd (hall _ le_rfl ?_) hno⟩
      have := Nat.div_mul_le_self va PGSIZE
      omega
    -- the page that is written now, and the rest of the loop
    have hpos : va % PGSIZE < PGSIZE := Nat.mod_lt _ (by decide)
    have hdm : va / PGSIZE * PGSIZE + va % PGSIZE = va := Nat.div_add_mod' va PGSIZE
    generalize hk : min (PGSIZE - va % PGSIZE) bs.length = k
    have hl := hs.poke_local hvU hm.1 (va % PGSIZE) (bs.take k)
    have hpte1 : ∀ u < VPAGES, pte (p.poke (frameAt p.mem d (va / PGSIZE)) (va % PGSIZE) (bs.take k)).mem d u = pte p.mem d u :=
      fun u hu => hs.pte_local hl hu
    have hbyte : (∀ b ∈ bs, b = 0) → ∀ g j,
        byteOf ((p.poke (frameAt p.mem d (va / PGSIZE)) (va % PGSIZE) (bs.take k)).mem g) j =
          if g = frameAt p.mem d (va / PGSIZE) ∧ va % PGSIZE ≤ j ∧ j < va % PGSIZE + k then 0 else byteOf (p.mem g) j := fun hbs g j => by
      by_cases hg : g = frameAt p.mem d (va / PGSIZE)
      · subst hg
        rw [poke_mem_self, byteOf_poke_zero fun b hb => hbs b (List.mem_of_mem_take hb), List.length_take, Nat.min_eq_left (by omega)]
        simp
      · rw [poke_mem_of_ne hg, if_neg fun h => hg h.1]
    simp only [wp_bind, wp_modify, u32_next hvU]
    refine wp_mono (ih (hs.local hl not_false) ?_ ?_) (fun r p1 h1 => ?_) fun _ he => he
    · simp only [List.length_drop, PGSIZE] at *
      omega
    · simp only [List.length_drop, PGSIZE] at *
      omega
    · have hdrop : (∀ b ∈ bs, b = 0) → ∀ b ∈ bs.drop k, b = 0 := fun hbs b hb => hbs b (List.mem_of_mem_drop hb)
      refine ⟨h1.freelist, fun u hu => (h1.pte u hu).trans (hpte1 u hu), fun hbs g j hz => h1.zero (hdrop hbs) g j ?_,
        fun hbs hr i hi => ?_, fun hall => h1.ok fun v hv1 hv2 => ?_⟩
      · rw [hbyte hbs]
        split
        · rfl
        · exact hz
      · by_cases hik : i < k
        · have hdiv : (va + i) / PGSIZE = va / PGSIZE := by
            simp only [PGSIZE] at *
            omega
          have hmod : (va + i) % PGSIZE = va % PGSIZE + i := by
            simp only [PGSIZE] at *
            omega
          have he := (h1.pte _ (lt_VPAGES hvU)).trans (hpte1 _ (lt_VPAGES hvU))
          unfold userByte
          rw [hdiv, hmod, if_pos ((userMapped_congr he).mpr hm), frameAt_congr he]
          refine congrArg some (h1.zero (hdrop hbs) _ _ ?_)
          rw [hbyte hbs, if_pos ⟨rfl, Nat.le_add_right _ _, by omega⟩]
        · have hrest := h1.read (hdrop hbs) hr (i - k) (by rw [List.length_drop]; omega)
          rwa [show va + i = (va / PGSIZE + 1) * PGSIZE + (i - k) by
            simp only [PGSIZE] at *
            omega]
      · rw [userMapped_congr (hpte1 v ?_)]
        · refine hall v ?_ ?_
          · rw [Nat.mul_div_cancel _ (by decide)] at hv1
            omega
          · rw [List.length_drop] at hv2
            simp only [PGSIZE] at *
            omega
        · refine lt_VPAGES (lt_of_lt_of_le ?_ hs.le)
          rw [Nat.mul_div_cancel _ (by decide)] at hv1
          rw [List.length_drop] at hv2
          simp only [PGSIZE] at *
          omega

/-- `copyout` to pages of the process. -/
theorem copyout_copied (hs : Space strict sh own p.mem d n) (hva : va + bs.length ≤ n * PGSIZE) :
    wp (copyout d va bs) (Copied d p va bs) E p :=
  copyoutLoop_copied hs hva le_rfl

/-- `readi` copies all the bytes of the segment that it is asked for. -/
def Readable (file : Nat → Nat → List UInt8) (offset sz : Nat) : Prop :=
  ∀ i n, n ≤ (file (u32 (offset + i)) n).length ∨ sz < i + n

/-- The loop of `loaduvm` writes to the new pages only. -/
theorem loadLoop_wp {a j offset : Nat} (hp : PhysOk L own p) (hs : Space true sh own p.mem d n) (hsz : a * PGSIZE + sz ≤ n * PGSIZE) :
    wp (loadLoop d file (a * PGSIZE) offset sz turns (j * PGSIZE))
      (fun r p' => PhysOk L own p' ∧ Local (fun _ => False) own own p.mem p'.mem ∧ p'.freelist = p.freelist ∧
        (Readable file offset sz → r = 0)) E p := by
  induction turns generalizing j p with
  | zero => exact ⟨hp, Local.refl, rfl, fun _ => rfl⟩
  | succ turns ih =>
    unfold loadLoop
    simp only [wp_ite, wp_pure]
    refine ⟨fun hj => ?_, fun _ => ⟨hp, Local.refl, trivial, fun _ => trivial⟩⟩
    have hv : a + j < n := by
      simp only [PGSIZE] at *
      omega
    have hvU := hv.trans_le hs.le
    have hP := hs.reach _ hv
    rw [← Nat.add_mul, u32_page (lt_VPAGES hvU), u32_next ((Nat.le_add_left j a).trans_lt hvU)]
    simp only [wp_bind]
    refine walkpgdir_read (lt_VPAGES hvU) (fun _ => ?_) fun h => absurd hP (by rw [h]; decide)
    have heq : pteFrame (p.mem (pteFrame (p.mem d ((a + j) / 1024))) ((a + j) % 1024)) = frameAt p.mem d (a + j) := by
      rw [frameAt, pte, if_pos hP]
    have hl := fun bs => hs.poke_local hvU (hs.full rfl _ hv) 0 bs
    simp only [wp_bind, wp_get, wp_set, wp_ite, wp_pure, heq]
    refine ⟨fun hshort => ⟨hp.setPage _ _, hl _, rfl, fun hread => absurd ?_ hshort⟩, fun _ => ?_⟩
    · rw [List.length_take, Nat.min_eq_left]
      exact (hread _ _).resolve_right (by omega)
    refine wp_mono (ih (hp.setPage _ _) (hs.local (hl _) not_false)) (fun _ p1 h1 => ?_) fun _ he => he
    exact ⟨h1.1, (hl _).trans h1.2.1, h1.2.2⟩

/-- `loaduvm` into pages that are there. -/
theorem loaduvm_wp {addr offset : Nat} (hp : PhysOk L own p) (hs : Space true sh own p.mem d n) (haddr : addr % PGSIZE = 0)
    (hsz : addr + sz ≤ n * PGSIZE) :
    wp (loaduvm d addr file offset sz)
      (fun r p' => PhysOk L own p' ∧ Local (fun _ => False) own own p.mem p'.mem ∧ p'.freelist = p.freelist ∧
        (Readable file offset sz → r = 0)) E p := by
  have ha : addr = addr / PGSIZE * PGSIZE := (Nat.div_mul_cancel (Nat.dvd_of_mod_eq_zero haddr)).symm
  unfold loaduvm
  simp only [wp_ite, wp_throw]
  refine ⟨fun h => absurd haddr h, fun _ => ?_⟩
  rw [ha] at hsz ⊢
  exact loadLoop_wp (j := 0) hp hs hsz

/-! ## Building the image -/

theorem le32_lt (bs : List UInt8) (i : Nat) : le32 bs i < 2 ^ 32 := by
  have h : ∀ j, (bs.getD j 0).toNat < 256 := fun j => UInt8.toNat_lt _
  have h0 := h i
  have h1 := h (i + 1)
  have h2 := h (i + 2)
  have h3 := h (i + 3)
  simp only [le32]
  omega

/-- What a part of `exec` leaves of the address space it builds: some pages and, when it goes on, as many as `good` says. -/
def BuildPost {α : Type} (L : Layout) (d : Frame) (own : Own) (p : Phys) (good : α → Nat → Prop) (r : Option α)
    (p' : Phys) : Prop :=
  ∃ own', PhysOk L own' p' ∧ Local (· = d) own own' p.mem p'.mem ∧
    ∃ k, Space true noShare own' p'.mem d k ∧ ∀ a, r = some a → good a k

/-- A part of `exec` after another. -/
theorem BuildPost.after {α : Type} {good : α → Nat → Prop} {r : Option α} (hl : Local (· = d) own own' p.mem p'.mem)
    (h : BuildPost L d own' p' good r p'') : BuildPost L d own p good r p'' := by
  obtain ⟨own'', hp, hl', h⟩ := h
  exact ⟨own'', hp, hl.trans hl', h⟩

/-- A part of `exec` that goes to `bad` without more ado. -/
theorem BuildPost.bad {α : Type} {good : α → Nat → Prop} (hp : PhysOk L own p) (hs : Space true noShare own p.mem d n) :
    BuildPost L d own p good none p :=
  ⟨own, hp, Local.refl, n, hs, nofun⟩

/-- The segments are loaded into the new directory. -/
theorem execLoad_wp {num off : Nat} (hp : PhysOk L own p) (hs : Space true noShare own p.mem d (pages sz)) (hsz : sz < KERNBASE) :
    wp (execLoad L d file num off sz)
      (BuildPost L d own p fun sz' k => k = pages sz' ∧ sz' < KERNBASE) E p := by
  induction num generalizing off sz own p with
  | zero =>
    refine ⟨own, hp, Local.refl, pages sz, hs, ?_⟩
    rintro _ ⟨rfl⟩
    exact ⟨rfl, hsz⟩
  | succ num ih =>
    unfold execLoad
    simp only [wp_ite, wp_pure]
    generalize hph : ProgHdr.ofBytes ((file off PROGHDRSIZE).take PROGHDRSIZE) = ph
    have hmem : ph.memsz < 2 ^ 32 := hph ▸ le32_lt _ _
    have hva : ph.vaddr < 2 ^ 32 := hph ▸ le32_lt _ _
    refine ⟨fun _ => BuildPost.bad hp hs, fun _ => ⟨fun _ => ih hp hs hsz, fun _ => ⟨fun _ => BuildPost.bad hp hs,
      fun hfile => ⟨fun _ => BuildPost.bad hp hs, fun hwrap => ?_⟩⟩⟩⟩
    have hnew : u32 (ph.vaddr + ph.memsz) = ph.vaddr + ph.memsz := by
      unfold u32 at hwrap ⊢
      omega
    rw [hnew]
    refine wp_call (allocuvm_wp hp hs hsz.le) fun r p1 h1 => ?_
    obtain ⟨own1, hp1, hl1, -, h1⟩ := h1
    simp only [wp_ite, wp_pure]
    refine ⟨fun hr => ?_, fun hr => ?_⟩
    · refine BuildPost.after hl1 ?_
      rcases h1 with ⟨-, hs1, -⟩ | ⟨-, -, -, hs1, -⟩ <;> exact BuildPost.bad hp1 hs1
    · obtain ⟨h0, -⟩ | ⟨-, hle, hlt, hs1, -⟩ := h1
      · exact absurd h0 hr
      have hrK : r < KERNBASE := by omega
      refine ⟨fun _ => BuildPost.after hl1 (BuildPost.bad hp1 hs1), fun hal => ?_⟩
      have hfit : ph.vaddr + ph.filesz ≤ pages r * PGSIZE := by
        simp only [pages, PGSIZE] at *
        omega
      refine wp_call (loaduvm_wp hp1 hs1 (by omega) hfit) fun r2 p2 h2 => ?_
      have hl2 := hl1.trans (h2.2.1.mono fun _ h => h.elim)
      have hs2 := hs1.local h2.2.1 not_false
      simp only [wp_ite, wp_pure]
      refine ⟨fun _ => BuildPost.after hl2 (BuildPost.bad h2.1 hs2), fun _ => ?_⟩
      exact wp_mono (ih h2.1 hs2 hrK) (fun _ _ h3 => BuildPost.after hl2 h3) fun _ he => he

/-- A string of at most `STRMAX` bytes is pushed inside the pages or, past address 0, into the devices. -/
theorem pushed_ok {k : Nat} (hsp : sp ≤ n * PGSIZE) (hk : k ≤ STRMAX) : CopyOk n (pushed sp k) k := by
  simp only [CopyOk, pushed, u32, STRMAX, DEVSPACE, PGSIZE] at *
  omega

/-- The arguments go to its stack. -/
theorem execArgs_wp {argc : Nat} {us : List Nat} (hp : PhysOk L own p) (hs : Space strict sh own p.mem d n)
    (hargv : ∀ a ∈ argv, a.length + 1 ≤ STRMAX) (hsp : sp ≤ n * PGSIZE) (hus : us.length = argc) (hargc : argc ≤ MAXARG) :
    wp (execArgs d argv argc sp us)
      (fun r p' => PhysOk L own p' ∧ Local (fun _ => False) own own p.mem p'.mem ∧
        ∀ a, r = some a → a.1 ≤ n * PGSIZE ∧ a.2.length ≤ MAXARG) E p := by
  induction argv generalizing argc sp us p with
  | nil =>
    refine ⟨hp, Local.refl, ?_⟩
    rintro _ ⟨rfl⟩
    exact ⟨hsp, hus ▸ hargc⟩
  | cons s ss ih =>
    unfold execArgs
    simp only [wp_ite, wp_pure]
    refine ⟨fun _ => ⟨hp, Local.refl, (fun _ he => by cases he)⟩, fun hlt => ?_⟩
    have hok := pushed_ok hsp (hargv s List.mem_cons_self)
    refine wp_call (copyout_wp hp hs (by simpa using hok)) fun r p1 h1 => ?_
    obtain ⟨hp1, hl1, h1⟩ := h1
    simp only [wp_ite, wp_pure]
    refine ⟨fun _ => ⟨hp1, hl1, (fun _ he => by cases he)⟩, fun hr => ?_⟩
    have hin := h1 (by simp) (by omega)
    refine wp_mono (ih hp1 (hs.local hl1 not_false) (fun a ha => hargv a (List.mem_cons_of_mem s ha)) (by omega)
      (by simp [hus]) (by omega)) (fun _ p2 h2 => ?_) fun _ he => he
    exact ⟨h2.1, hl1.trans h2.2.1, h2.2.2⟩

theorem execPush_wp (hp : PhysOk L own p) (hs : Space strict sh own p.mem d n) (hargv : ∀ a ∈ argv, a.length + 1 ≤ STRMAX)
    (hsp : sp ≤ n * PGSIZE) :
    wp (execPush d argv sp)
      (fun _ p' => PhysOk L own p' ∧ Local (fun _ => False) own own p.mem p'.mem) E p := by
  unfold execPush
  refine wp_call (execArgs_wp hp hs hargv hsp rfl (Nat.zero_le _)) fun r p1 h1 => ?_
  obtain ⟨hp1, hl1, h1⟩ := h1
  cases r with
  | none => exact ⟨hp1, hl1⟩
  | some a =>
    obtain ⟨sp1, us⟩ := a
    obtain ⟨hsp1, hus⟩ := h1 _ rfl
    have hlen : (([0xffffffff, us.length, u32 (sp1 + 2 ^ 32 - (us.length + 1) * 4)] ++ us ++ [0]).flatMap
        wordBytes).length = (3 + us.length + 1) * 4 := by
      simp [List.length_flatMap, wordBytes]
      omega
    have hok : CopyOk n (u32 (sp1 + 2 ^ 32 - (3 + us.length + 1) * 4)) ((3 + us.length + 1) * 4) := by
      have hn := hs.le
      simp only [CopyOk, u32, DEVSPACE, UPAGES, KERNBASE, PGSIZE, MAXARG] at *
      omega
    refine wp_call (copyout_wp hp1 (hs.local hl1 not_false) (by rw [hlen]; exact hok)) fun r p2 h2 => ?_
    have hl2 := hl1.trans h2.2.1
    simp only [wp_ite, wp_pure]
    exact ⟨fun _ => ⟨h2.1, hl2⟩, fun _ => ⟨h2.1, hl2⟩⟩

/-- So the new directory is filled without a change elsewhere. -/
theorem execFill_wp {elf : ElfHdr} (hp : PhysOk L own p) (hs : Space true noShare own p.mem d 0)
    (hargv : ∀ a ∈ argv, a.length + 1 ≤ STRMAX) :
    wp (execFill L d file argv elf)
      (BuildPost L d own p fun a k => k = pages a.1 ∧ a.1 < KERNBASE) E p := by
  unfold execFill
  have h0 : Space true noShare own p.mem d (pages 0) := hs
  refine wp_call (execLoad_wp hp h0 (by decide)) fun r p1 h1 => ?_
  obtain ⟨own1, hp1, hl1, k, hs1, h1⟩ := h1
  cases r with
  | none => exact BuildPost.after hl1 (BuildPost.bad hp1 hs1)
  | some sz =>
    have hk : k = pages sz := (h1 sz rfl).1
    have hsz : sz < KERNBASE := (h1 sz rfl).2
    subst hk
    have hle := pages_le hsz.le
    have hold : pages sz * PGSIZE ≤ KERNBASE := Nat.mul_le_mul_right _ hle
    have hnew : u32 (pages sz * PGSIZE + 2 * PGSIZE) = (pages sz + 2) * PGSIZE := by
      rw [← Nat.add_mul, u32_page]
      simp only [UPAGES, VPAGES, KERNBASE, PGSIZE] at *
      omega
    simp only [pgRoundUp_eq hsz.le, hnew]
    refine wp_call (allocuvm_wp hp1 (by rw [pages_mul]; exact hs1) hold) fun r p2 h2 => ?_
    obtain ⟨own2, hp2, hl2, -, h2⟩ := h2
    have hl12 := hl1.trans hl2
    simp only [wp_ite, wp_pure]
    refine ⟨fun _ => BuildPost.after hl12 ?_, fun hr => ?_⟩
    · rcases h2 with ⟨-, hs2, -⟩ | ⟨-, -, -, hs2, -⟩ <;> exact BuildPost.bad hp2 hs2
    · obtain ⟨h0, -⟩ | ⟨-, hge, hlt, hs2, -⟩ := h2
      · exact absurd h0 hr
      -- two pages more, the first of which the user may not use
      have hrn : r = (pages sz + 2) * PGSIZE ∧ r < KERNBASE := by
        simp only [PGSIZE] at *
        omega
      obtain ⟨rfl, hrK⟩ := hrn
      have hguard : (pages sz + 2) * PGSIZE - 2 * PGSIZE = pages sz * PGSIZE := by
        rw [Nat.add_mul, Nat.add_sub_cancel]
      rw [pages_mul] at hs2
      rw [hguard]
      refine wp_call (clearpteu_wp hp2 hs2 (by omega)) fun _ p3 h3 => ?_
      obtain ⟨hp3, hs3, hl3, -⟩ := h3
      refine wp_call (execPush_wp hp3 hs3 hargv le_rfl) fun r p4 h4 => ?_
      have hl4 := (hl12.trans hl3).trans (h4.2.mono fun _ h => h.elim)
      have hs4 := hs3.local h4.2 not_false
      cases r with
      | none => exact BuildPost.after hl4 (BuildPost.bad h4.1 hs4)
      | some sp =>
        refine ⟨own2, h4.1, hl4, _, hs4, ?_⟩
        rintro _ ⟨rfl⟩
        exact ⟨(pages_mul _).symm, hrK⟩

/-- `exec` up to its commit: an address space with the pages that its size says, or nothing. -/
theorem execImage_wp (hp : PhysOk L own p) (hargv : ∀ a ∈ argv, a.length + 1 ≤ STRMAX) :
    wp (execImage L file argv)
      (fun r p' => ∃ own', PhysOk L own' p' ∧ Local (fun e => own e = .free) own own' p.mem p'.mem ∧
        ∀ im, r = some im →
          own im.pgdir = .free ∧ im.sz < KERNBASE ∧ Space true noShare own' p'.mem im.pgdir (pages im.sz)) E p := by
  unfold execImage
  simp only [wp_ite, wp_pure]
  refine ⟨fun _ => ⟨own, hp, Local.refl, (fun _ he => by cases he)⟩,
    fun _ => ⟨fun _ => ⟨own, hp, Local.refl, (fun _ he => by cases he)⟩, fun _ => ?_⟩⟩
  refine wp_call (setupkvm_wp hp) fun r p1 h1 => ?_
  obtain ⟨own1, hp1, hl1, ⟨rfl, -⟩ | ⟨d, rfl, hfree, hs1, -, -⟩⟩ := h1
  · exact ⟨own1, hp1, hl1, (fun _ he => by cases he)⟩
  have hD : ∀ e, e = d → own e = .free := fun e he => he ▸ hfree
  refine wp_call (execFill_wp hp1 hs1 hargv) fun r p2 h2 => ?_
  obtain ⟨own2, hp2, hl2, k, hs2, h2⟩ := h2
  have hl12 := hl1.trans (hl2.mono hD)
  cases r with
  | none =>
    refine wp_call (freevm_wp hp2 hs2.toTables (hs2.private le_rfl fun _ _ _ => rfl)) fun _ p3 h3 => ?_
    obtain ⟨own3, hp3, hl3, -⟩ := h3
    exact ⟨own3, hp3, hl12.trans (hl3.mono hD), (fun _ he => by cases he)⟩
  | some a =>
    have hk : k = pages a.1 := (h2 a rfl).1
    subst hk
    refine ⟨own2, hp2, hl12, ?_⟩
    rintro _ ⟨rfl⟩
    exact ⟨hfree, (h2 a rfl).2, hs2⟩

end OsLab
