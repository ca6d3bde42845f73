import OsLab.Lemmas.ShortRuns

/-!
# What shmem shows

`sys_shmem` gives its caller a page of its own with a copy of the kernel's page for the key, and nothing is ever copied back. So
the kernel's page is as it was zeroed, and every `shmem` that succeeds shows zeros: the bytes that a process has stored into the
page it got are seen by a later `shmem` exactly when they are all zero (`shmem_shows_iff`). A byte that is not is lost
(`shmem_not_shared`).
-/

namespace OsLab

/-- The byte that the process in slot `i` reads at an address. -/
def Kern.userByte (s : Kern) (i : Slot) (va : Nat) : Option UInt8 :=
  (s.table.proc i).pgdir.bind fun d => OsLab.userByte s.phys.mem d va

/-- The `PGSIZE` bytes that the process in slot `i` reads from an address on. -/
def Kern.userPage (s : Kern) (i : Slot) (va : Nat) : List (Option UInt8) :=
  (List.range PGSIZE).map fun k => s.userByte i (va + k)

/-- A call of `shmem`, `fork` or `fork2`, or a store. -/
def MemAct.Sharing (a : MemAct) : Prop :=
  match a.call with
  | .shmem _ | .fork | .fork2 _ | .store _ _ => True
  | _ => False

theorem MemAct.Sharing.memOk {L : Layout} {base : Nat} {a : MemAct} (h : a.Sharing) (s : Kern) : MemOk L base s a := by
  obtain ⟨cur, call⟩ := a
  cases call <;> first | exact ⟨trivial, trivial⟩ | exact h.elim

/-- A process has, in some state of a run, some bytes at an address, in particular at one that `shmem` returned to it. After any
more calls and stores, a `shmem` that succeeds shows those bytes exactly when they are all zero. -/
theorem shmem_shows_iff {L : Layout} {base : Nat} {s s1 s2 : Kern} {as : List MemAct} {i cur : Slot} {va : Nat} {key : Arg}
    {r : Int} (h : (memSys L base).Reach (MemOk L base) s) (has : ∀ a ∈ as, a.Sharing)
    (hrun : (memSys L base).run s as = some s1) (hact : (s1.table.proc cur).Active)
    (hcall : sysShmem L cur key s1 = .ok (r, s2)) (hr : 0 ≤ r) :
    s2.userPage cur r.toNat = s.userPage i va ↔ ∀ k < PGSIZE, s.userByte i (va + k) = some 0 := by
  obtain ⟨own, sh, hk⟩ := kernInv_of_memOk (h.run (fun a ha t => (has a ha).memOk t) hrun)
  have hwp : Cmd.wp (sysShmem L cur key) _ (fun _ => False) s1 := sysShmem_wp hk le_rfl (Nat.sub_le _ _) hact.1
  obtain ⟨hva, d, hd, hzero⟩ := (Cmd.wp_ok hwp hcall).2 hr
  have hread : ∀ k < PGSIZE, s2.userByte cur (r.toNat + k) = some 0 := fun k hk => by
    rw [hva, Int.toNat_natCast, Kern.userByte, hd]
    exact hzero k hk
  unfold Kern.userPage
  rw [List.map_inj_left]
  simp only [List.mem_range]
  exact ⟨fun he k hk => (he k hk).symm.trans (hread k hk), fun hz k hk => (hread k hk).trans (hz k hk).symm⟩

/-- The first process calls `shmem(0)`, stores a byte into the page that it gets, and calls `shmem(0)` again. -/
theorem shmem_store_shmem (base : Nat) (b : UInt8) : ∃ s0 s1 s2 s3, Boot sampleLayout sampleBoot s0 ∧
    sysShmem sampleLayout 0 (some 0) s0 = .ok (4096, s1) ∧ userStore 0 4096 b s1 = .ok (0, s2) ∧
    (memSys sampleLayout base).Reach (MemOk sampleLayout base) s2 ∧ (s2.table.proc 0).Active ∧
    s2.userByte 0 4096 = some b ∧ sysShmem sampleLayout 0 (some 0) s2 = .ok (8192, s3) ∧
    ∀ k < PGSIZE, s3.userByte 0 (8192 + k) = some 0 := by
  obtain ⟨s0, own0, hb, hk0, -, hact, hsz, d, hd, hlen⟩ := boot_kernOk sampleBoot
  obtain ⟨s1, hrun1, ⟨⟨own1, sh1, hk1⟩, -⟩, hmap, htab, hlen1⟩ :=
    shmem_ok (n := 1) 0 hk0 (by decide) le_rfl hact hd (by rw [hsz]; rfl) (by decide) (by omega)
  have hp1 : s1.table.proc 0 = { s0.table.proc 0 with sz := 2 * PGSIZE } := by rw [htab]; simp
  have hact1 : (s1.table.proc 0).Active := by rw [hp1]; exact hact
  have hd1 : (s1.table.proc 0).pgdir = some d := by rw [hp1]; exact hd
  have hst := userStore_ok 4096 b hd1 (by decide) hmap
  obtain ⟨d', k, hlive⟩ := hk1.lives 0 hact1.1
  obtain rfl : d' = d := hlive.pgdir_eq hd1
  obtain ⟨hread, habs⟩ := hlive.space.store 4096 (by decide) hmap b
  have hwp : Cmd.wp (userStore 0 4096 b) _ (fun _ => False) s1 := userStore_wp hk1 hact1.1
  obtain ⟨own2, sh2, hk2⟩ := Cmd.wp_ok hwp hst
  obtain ⟨s3, hrun3, hpost, -⟩ := shmem_ok (n := 2) 0 hk2 (by decide) le_rfl hact1 hd1 (by dsimp only; rw [hp1]) (by decide)
    (by dsimp only [Phys.poke, Phys.setPage] at habs ⊢; omega)
  obtain ⟨-, e, he, hzero⟩ := hpost.2 (Int.natCast_nonneg _)
  have hr0 : (memSys sampleLayout base).Reach (MemOk sampleLayout base) s0 := .init ⟨_, hb⟩
  have hst1 : memStep sampleLayout base s0 ⟨0, .shmem (some 0)⟩ = some s1 := memStep_of_code hact hrun1
  have hst2 : memStep sampleLayout base s1 ⟨0, .store 4096 b⟩ = some _ := memStep_of_code hact1 hst
  have hok1 : MemAct.Sharing ⟨0, .shmem (some 0)⟩ := trivial
  have hok2 : MemAct.Sharing ⟨0, .store 4096 b⟩ := trivial
  refine ⟨s0, s1, _, s3, hb, hrun1, hst, (hr0.step _ (hok1.memOk s0) hst1).step _ (hok2.memOk s1) hst2, hact1, ?_,
    hrun3, fun k hk => ?_⟩
  · rw [Kern.userByte, hd1]
    exact hread
  · rw [Kern.userByte, he]
    have := hzero k hk
    dsimp only at this
    rw [hp1] at this
    exact this

/-- The first process has stored a 1: its page is not what a later `shmem` shows. -/
theorem shmem_shows_iff_one : ∃ s s3, (memSys sampleLayout 0x80112d54).Reach (MemOk sampleLayout 0x80112d54) s ∧
    s.userByte 0 4096 = some 1 ∧ sysShmem sampleLayout 0 (some 0) s = .ok (8192, s3) ∧
    (s3.userPage 0 (8192 : Int).toNat = s.userPage 0 4096 ↔ ∀ k < PGSIZE, s.userByte 0 (4096 + k) = some 0) := by
  obtain ⟨s0, s1, s2, s3, -, -, -, hr, hact, hone, hcall, -⟩ := shmem_store_shmem 0x80112d54 1
  exact ⟨s2, s3, hr, hone, hcall, shmem_shows_iff hr (fun a ha => absurd ha List.not_mem_nil) rfl hact hcall (by decide)⟩

/-- `shmem(0)`, a store of 1 into the page, and `shmem(0)` again, all by the first process: the page that the second call
returns has a 0 there. -/
theorem shmem_not_shared : ∃ s0 s1 s2 s3, Boot sampleLayout sampleBoot s0 ∧
    sysShmem sampleLayout 0 (some 0) s0 = .ok (4096, s1) ∧ userStore 0 4096 1 s1 = .ok (0, s2) ∧
    (memSys sampleLayout 0x80112d54).Reachable s2 ∧ s2.userByte 0 4096 = some 1 ∧
    sysShmem sampleLayout 0 (some 0) s2 = .ok (8192, s3) ∧ s3.userByte 0 8192 = some 0 := by
  obtain ⟨s0, s1, s2, s3, hb, h1, h2, hr, -, hone, hcall, hzero⟩ := shmem_store_shmem 0x80112d54 1
  exact ⟨s0, s1, s2, s3, hb, h1, h2, hr.mono fun _ _ _ => trivial, hone, hcall, hzero 0 (by decide)⟩

end OsLab
