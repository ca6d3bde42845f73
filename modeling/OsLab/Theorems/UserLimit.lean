import OsLab.Lemmas.ShortRuns

/-!
# User address spaces stay below the kernel

`allocuvm` refuses to grow a process to `KERNBASE`, but `shmget` maps its page without asking. While every caller of `shmget`
has room for one more page, all processes end below the kernel, and `shmget` maps the page after the last one of its caller and
nothing else (`user_limit`). The calls of `shmget` need hardly any memory, and 524287 of them by the first process take it up to
`KERNBASE`, where the next one stops the machine (`shmget_reaches_kernel`).
-/

namespace OsLab

variable {L : Layout} {base : Nat} {s : Kern}

/-- The call keeps memory in order and the caller of `shmget` below the kernel. -/
def BelowOk (L : Layout) (base : Nat) (s : Kern) (a : MemAct) : Prop := MemOk L base s a ∧ ShmgetBelow s a

/-- What `shmget` changes in the page table of its caller. -/
theorem sysShmget_maps {strict : Bool} {lim : Nat} {own : Own} {sh : Slot → Share} {cur : Slot} {a : Arg} {d : Frame}
    (h : KernOk L strict lim own sh s) (hlim : lim ≤ KERNBASE) (hused : (s.table.proc cur).state ≠ .unused)
    (hd : (s.table.proc cur).pgdir = some d) :
    Cmd.wp (sysShmget cur a)
      (fun _ s' => ∀ v < VPAGES, pte s'.phys.mem d v ≠ pte s.phys.mem d v →
        v = pages (s.table.proc cur).sz ∧ pages (s.table.proc cur).sz < UPAGES)
      (fun e => e = .remap ∧ pages (s.table.proc cur).sz = UPAGES) s := by
  unfold sysShmget
  split
  · exact fun v _ hne => absurd rfl hne
  refine Cmd.wp_mono (shmget_wp _ h hlim hused hd) (fun r s1 h1 v hv hne => ?_) fun _ he => he
  obtain ⟨-, rfl, -⟩ | ⟨j, s0, own0, k, page, -, -, hready, -, -, hn, hpost⟩ := h1
  · exact absurd rfl hne
  refine ⟨?_, hn⟩
  rw [← hready.pte v hv, ← hready.table] at *
  obtain ⟨-, rfl, -⟩ | ⟨-, own1, p1, -, -, -, rfl, -, hpte⟩ := hpost
  · exact absurd rfl hne
  · by_contra hv'
    refine hne ?_
    dsimp only
    rw [hpte v hv, if_neg hv']

/-- In every state of a run in which every caller of `shmget` has room for one more page below the kernel, every process ends
below the kernel, and such a caller gets no panic: only the entry of the page after its last one may have changed. -/
theorem user_limit (h : (memSys L base).Reach (BelowOk L base) s) :
    (∀ i, (s.table.proc i).state ≠ .unused → (s.table.proc i).sz < KERNBASE) ∧
    ∀ i a d, (s.table.proc i).Active → (s.table.proc i).pgdir = some d → ShmgetBelow s ⟨i, .shmget a⟩ →
      ∃ r s', sysShmget i a s = .ok (r, s') ∧ ∀ v < VPAGES, pte s'.phys.mem d v ≠ pte s.phys.mem d v →
        v * PGSIZE = pgRoundUp (s.table.proc i).sz ∧ v * PGSIZE < KERNBASE := by
  obtain ⟨own, sh, hk⟩ : KernInv L false (KERNBASE - 1) s :=
    kernInv_of_reach (Nat.sub_le _ _) le_rfl (fun _ _ h => h.1) (fun _ _ h _ => h.2) (fun _ _ _ => nofun) h
  have hsz : ∀ i, (s.table.proc i).state ≠ .unused → (s.table.proc i).sz < KERNBASE := fun i hi => by
    obtain ⟨d, k, hlive⟩ := hk.lives i hi
    exact Nat.lt_of_le_pred (by decide) hlive.size
  refine ⟨hsz, fun i a d hact hd hbelow => ?_⟩
  have hn : pages (s.table.proc i).sz < UPAGES := by
    simp only [ShmgetBelow, UPAGES, KERNBASE, PGSIZE] at *
    omega
  obtain ⟨r, s', hrun, hpost⟩ := Cmd.exists_of_wp
    (Cmd.wp_mono (sysShmget_maps (a := a) hk (by decide) hact.1 hd) (fun _ _ h => h) fun e he => hn.ne he.2)
  refine ⟨r, s', hrun, fun v hv hne => ?_⟩
  obtain ⟨rfl, -⟩ := hpost v hv hne
  refine ⟨(pgRoundUp_eq (hsz i hact.1).le).symm, ?_⟩
  simp only [UPAGES, KERNBASE, PGSIZE] at *
  omega

/-- The first process has mapped a region, and may map another. -/
theorem user_limit_shmget : ∃ s, (memSys sampleLayout 0x80112d54).Reach (BelowOk sampleLayout 0x80112d54) s ∧
    (s.table.proc 0).sz = 2 * PGSIZE ∧ (s.table.proc 0).sz < KERNBASE ∧
    ∃ r s', sysShmget 0 (some 1) s = .ok (r, s') := by
  obtain ⟨s0, s, f, hb, hst, -, -, hact, hsz, -, d, hd, -⟩ := boot_shmget 0x80112d54 sampleBoot
  obtain ⟨s0', -, hb', -, -, -, hsz0, -⟩ := boot_kernOk sampleBoot
  obtain rfl := hb.unique hb'
  have hr0 : (memSys sampleLayout 0x80112d54).Reach (BelowOk sampleLayout 0x80112d54) s0 := .init ⟨_, hb⟩
  have hbelow : ShmgetBelow s0 ⟨0, .shmget (some 0)⟩ := by
    simp only [ShmgetBelow, hsz0]
    decide
  have hok : BelowOk sampleLayout 0x80112d54 s0 ⟨0, .shmget (some 0)⟩ := ⟨⟨trivial, trivial⟩, hbelow⟩
  have hr := hr0.step _ hok hst
  have hbelow' : ShmgetBelow s ⟨0, .shmget (some 1)⟩ := by
    simp only [ShmgetBelow, hsz]
    decide
  obtain ⟨r, s', hrun, -⟩ := (user_limit hr).2 0 (some 1) d hact hd hbelow'
  exact ⟨s, hr, hsz, (user_limit hr).1 0 hact.1, r, s', hrun⟩

/-- The first process calls `shmget(0)` over and over. -/
theorem shmget_climbs (base : Nat) (b : BootData L) {n : Nat} (h2 : 2 ≤ n) (hn : n ≤ UPAGES) :
    ∃ s d f, (memSys L base).Reachable s ∧ KernInv L true KERNBASE s ∧ (s.table.proc 0).Active ∧
      (s.table.proc 0).sz = n * PGSIZE ∧ (s.table.proc 0).pgdir = some d ∧ (s.regions 0).page = some f ∧
      absent s.phys.mem d ≤ s.phys.freelist.length := by
  induction n, h2 using Nat.le_induction with
  | base =>
    obtain ⟨s0, s, f, hb, hst, ⟨own, sh, hk⟩, -, hact, hsz, hreg, d, hd, -, hlen⟩ := boot_shmget base b
    have hr0 : (memSys L base).Reachable s0 := .init ⟨b, hb⟩
    exact ⟨s, d, f, hr0.step _ trivial hst, ⟨own, sh, hk.weaken (Nat.sub_le _ _)⟩, hact, hsz, hd, by rw [hreg], hlen⟩
  | succ n h2 ih =>
    obtain ⟨s, d, f, hr, ⟨own, sh, hk⟩, hact, hsz, hd, hreg, hlen⟩ := ih (Nat.le_of_succ_le hn)
    have hpg : pages (s.table.proc 0).sz = n := by rw [hsz, pages_mul]
    have hbelow : (pages (s.table.proc 0).sz + 1) * PGSIZE ≤ KERNBASE := by
      rw [hpg]
      exact Nat.mul_le_mul_right PGSIZE hn
    have hlen0 : absent s.phys.mem d + (if (s.regions 0).page = none then 1 else 0) ≤ s.phys.freelist.length := by
      rw [if_neg (by rw [hreg]; exact nofun), Nat.add_zero]
      exact hlen
    obtain ⟨s', f', hst, hinv, htab, hpage, -, hlen', -⟩ := shmget_step base hk le_rfl hact hd hbelow 0 hlen0
    have hp : s'.table.proc 0 = { s.table.proc 0 with sz := (n + 1) * PGSIZE } := by rw [htab, hpg]; simp
    exact ⟨s', d, f', hr.step _ trivial hst, hinv, by rw [hp]; exact hact, by rw [hp], by rw [hp]; exact hd, hpage, hlen'⟩

/-- After 524287 calls the first process reaches up to the kernel, and the next call stops the machine. -/
theorem shmget_reaches_kernel : ∃ s, (memSys sampleLayout 0x80112d54).Reachable s ∧ (s.table.proc 0).Active ∧
    (s.table.proc 0).sz = KERNBASE ∧ sysShmget 0 (some 0) s = .error .remap := by
  obtain ⟨s, d, f, hr, ⟨own, sh, hk⟩, hact, hsz, hd, hreg, -⟩ := shmget_climbs 0x80112d54 sampleBoot (by decide) le_rfl
  have hK : (s.table.proc 0).sz = KERNBASE := hsz.trans (by decide)
  refine ⟨s, hr, hact, hK, ?_⟩
  have hwp : Cmd.wp (sysShmget 0 (some 0)) _ _ s := shmget_wp 0 hk le_rfl hact.1 hd
  rcases hrun : sysShmget 0 (some 0) s with e | ⟨r, s'⟩
  · rw [(Cmd.wp_error hwp hrun).1]
  have hidx : argIndex NSHM 0 = some 0 := rfl
  have hpost := Cmd.wp_ok hwp hrun
  simp only [hidx, reduceCtorEq, false_or, Option.some.injEq] at hpost
  obtain ⟨-, -, j, rfl, hno, -⟩ | ⟨j, s0, own0, k, page, -, -, -, -, -, hn, -⟩ := hpost
  · rw [hreg] at hno
    cases hno
  · rw [hK] at hn
    exact absurd hn (by decide)

end OsLab
