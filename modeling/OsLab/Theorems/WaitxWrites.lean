import OsLab.Lemmas.Teardown
import OsLab.Lemmas.ShortRuns
import OsLab.ProcRuns

/-!
# Where waitx writes

`sys_waitx` stores through its addresses without a check. It writes only where the caller may write exactly when, in a turn that finds
a zombie child, both addresses are in the process and mapped for writing (`waitx_writes_iff`). An address of the process table is
stored to like any other (`waitx_writes_table`).
-/

namespace OsLab

open Cmd

namespace WaitxAux

open LifeAux

variable {L : Layout} {base : Nat} {s s' : Kern} {p p' p'' : Phys} {m : Mem} {d e : Frame} {X Y : Nat → Prop} {cur i : Slot}
  {E : Panic → Prop}

/-! ## Stores into the process -/

/-- The user pages of the address space are not in its tree. -/
def Apart (m : Mem) (d : Frame) : Prop := ∀ v < UPAGES, Mapped m d v → ¬ InTree m d (frameAt m d v)

/-- User pages of `d` have been written, at the addresses `X`. -/
structure Stored (d : Frame) (X : Nat → Prop) (p p' : Phys) : Prop where
  freelist : p'.freelist = p.freelist
  page : ∀ f, (∀ v < UPAGES, Mapped p.mem d v → frameAt p.mem d v ≠ f) → p'.mem f = p.mem f
  bytes : ∀ f off, off < PGSIZE → (∀ a, X a → ¬ (frameAt p.mem d (a / PGSIZE) = f ∧ a % PGSIZE = off)) →
    byteOf (p'.mem f) off = byteOf (p.mem f) off

theorem Stored.refl : Stored d X p p := ⟨rfl, fun _ _ => rfl, fun _ _ _ _ => rfl⟩

/-- A tree that the user pages are not in is as it was. -/
theorem Stored.tree (h : Stored d X p p') (hout : ∀ v < UPAGES, Mapped p.mem d v → ¬ InTree p.mem e (frameAt p.mem d v)) {f : Frame}
    (hf : InTree p.mem e f) : p'.mem f = p.mem f :=
  h.page f fun v hv hm he => hout v hv hm (he ▸ hf)

theorem Stored.pte (h : Stored d X p p') (ha : Apart p.mem d) {v : Nat} (hv : v < VPAGES) : OsLab.pte p'.mem d v = OsLab.pte p.mem d v :=
  pte_of_tree (fun _ => h.tree ha) hv

theorem Stored.apart (h : Stored d X p p') (ha : Apart p.mem d) : Apart p'.mem d := by
  intro v hv hm
  have he := h.pte ha (lt_VPAGES hv)
  rw [mapped_congr he] at hm
  rw [frameAt_congr he, inTree_congr (h.tree ha InTree.self)]
  exact ha v hv hm

theorem Stored.trans (h : Stored d X p p') (ha : Apart p.mem d) (hY : ∀ a, Y a → a < 2 ^ 32) (h' : Stored d Y p' p'') :
    Stored d (fun a => X a ∨ Y a) p p'' := by
  refine ⟨h'.freelist.trans h.freelist, fun f hf => ?_, fun f off hoff hout => ?_⟩
  · rw [h'.page f fun v hv hm => ?_, h.page f hf]
    have he := h.pte ha (lt_VPAGES hv)
    rw [mapped_congr he] at hm
    rw [frameAt_congr he]
    exact hf v hv hm
  · rw [h'.bytes f off hoff fun a hY' => ?_, h.bytes f off hoff fun a hX => hout a (Or.inl hX)]
    have hv : a / PGSIZE < VPAGES := by
      have := hY a hY'
      simp only [PGSIZE, VPAGES]
      omega
    rw [frameAt_congr (h.pte ha hv)]
    exact hout a (Or.inr hY')

/-- Whether an address may be written is read off the tree. -/
theorem Stored.writable (h : Stored d X p p') (ha : Apart p.mem d) {va : Nat} : Writable p'.mem d va ↔ Writable p.mem d va := by
  have hd := h.tree ha InTree.self
  unfold Writable
  rw [hd]
  by_cases hP : hasP (p.mem d (pdx va)) = true
  · have hk : pdx va < 1024 := Nat.mod_lt _ (by decide)
    rw [h.tree ha (inTree_table hk hP)]
  · simp [hP]

theorem storeByte_wp {va : Nat} {b : UInt8} (hva : va < KERNBASE) :
    wp (storeByte d va b) (fun _ p' => Writable p.mem d va ∧ Stored d (· = va) p p') (fun _ => ¬ Writable p.mem d va) p := by
  unfold storeByte
  simp only [wp_bind, wp_get, wp_ite, wp_set, wp_throw]
  refine ⟨fun hw => ⟨hw, ?_⟩, fun hw => hw⟩
  have hpte : p.mem (pteFrame (p.mem d (pdx va))) (ptx va) = OsLab.pte p.mem d (va / PGSIZE) :=
    pte_of_addr (by simp only [KERNBASE] at hva; omega) hw.1
  have hv : va / PGSIZE < UPAGES := by
    simp only [UPAGES, KERNBASE, PGSIZE] at *
    omega
  have hmap : Mapped p.mem d (va / PGSIZE) := by
    unfold Mapped
    rw [← hpte]
    exact hw.2.2.1
  rw [hpte]
  refine ⟨rfl, fun f hf => poke_mem_of_ne fun he => hf _ hv hmap he.symm, fun f off _ hout => ?_⟩
  by_cases hf : f = frameAt p.mem d (va / PGSIZE)
  · subst hf
    have hne : off ≠ va % PGSIZE := fun he => hout va rfl ⟨rfl, he.symm⟩
    show byteOf ((p.poke (frameAt p.mem d (va / PGSIZE)) (va % PGSIZE) [b]).mem _) off = _
    rw [poke_mem_self, byteOf_pokePage]
    split
    · rw [List.getElem?_eq_none (by simp only [List.length_singleton]; omega), Option.getD_none]
    · rfl
  · exact congrArg (byteOf · off) (poke_mem_of_ne hf)

theorem storeBytes_wp {bs : List UInt8} {va : Nat} (ha : Apart p.mem d) (hva : va + bs.length ≤ KERNBASE) :
    wp (storeBytes d va bs)
      (fun _ p' => (∀ j < bs.length, Writable p.mem d (va + j)) ∧ Stored d (fun a => va ≤ a ∧ a < va + bs.length) p p')
      (fun _ => ¬ ∀ j < bs.length, Writable p.mem d (va + j)) p := by
  induction bs generalizing va p with
  | nil => exact ⟨fun j hj => absurd hj j.not_lt_zero, Stored.refl⟩
  | cons b bs ih =>
    simp only [List.length_cons] at hva ⊢
    unfold storeBytes
    rw [wp_bind]
    refine wp_mono (storeByte_wp (by omega)) (fun _ p1 h1 => ?_) fun _ hw hall => hw (hall 0 (by omega))
    obtain ⟨hw, h1⟩ := h1
    refine wp_mono (ih (h1.apart ha) (by omega)) (fun _ p2 h2 => ?_) fun _ hno hall => hno fun j hj => ?_
    · obtain ⟨hall, h2⟩ := h2
      refine ⟨fun j hj => ?_, ?_⟩
      · rcases j with _ | j
        · exact hw
        · rw [← h1.writable ha, show va + (j + 1) = va + 1 + j by omega]
          exact hall j (by omega)
      · have h12 := h1.trans ha (fun a hY => by simp only [KERNBASE] at hva; omega) h2
        refine ⟨h12.freelist, h12.page, fun f off hoff hout => h12.bytes f off hoff fun a hX => hout a ?_⟩
        rcases hX with rfl | hY
        · exact ⟨le_rfl, by omega⟩
        · exact ⟨by omega, by omega⟩
    · rw [h1.writable ha, show va + 1 + j = va + (j + 1) by omega]
      exact hall (j + 1) (by omega)

/-- The four addresses of a store. -/
def Word (addr a : Nat) : Prop := addr ≤ a ∧ a < addr + 4

/-- A store below the kernel. -/
theorem storeWord_user {addr : Nat} {v : Int} (ha : Apart s.phys.mem d) (hlow : addr + 4 ≤ KERNBASE) :
    wp (storeWord base d addr v)
      (fun _ s1 => s1 = { s with phys := s1.phys } ∧ (∀ j < 4, Writable s.phys.mem d (addr + j)) ∧ Stored d (Word addr) s.phys s1.phys)
      (fun _ => ¬ ∀ j < 4, Writable s.phys.mem d (addr + j)) s := by
  unfold storeWord
  rw [if_pos hlow, wp_onPhys]
  have hbytes := @storeBytes_wp _ _ (wordBytes (uintOf v)) _ ha hlow
  exact wp_mono hbytes (fun _ _ h => ⟨rfl, h⟩) fun _ h => h

/-- A store into the table. -/
theorem storeWord_table {addr : Nat} {v : Int} {t : Table} (hhigh : ¬ addr + 4 ≤ KERNBASE) (ht : storeInt base addr v s.table = some t) :
    wp (storeWord base d addr v) (fun _ s1 => s1 = { s with table := t }) E s := by
  unfold storeWord
  rw [if_neg hhigh, wp_bind, wp_get]
  simp only [ht, wp_onTable]

/-- What a store comes to that does not stop the machine: the table is as `storeInt` has it, and user pages at most have changed. -/
theorem storeWord_some (addr : Nat) (v : Int) (ha : Apart s.phys.mem d) :
    wp (storeWord base d addr v)
      (fun _ s1 => storeInt base addr v s.table = some s1.table ∧
        (addr + 4 ≤ KERNBASE → ∀ j < 4, Writable s.phys.mem d (addr + j)) ∧ Stored d (Word addr) s.phys s1.phys)
      (fun _ => True) s := by
  by_cases hlow : addr + 4 ≤ KERNBASE
  · refine wp_mono (storeWord_user ha hlow) (fun _ s1 h => ⟨?_, fun _ => h.2.1, h.2.2⟩) fun _ _ => trivial
    rw [h.1]
    exact if_pos hlow
  · unfold storeWord
    rw [if_neg hlow, wp_bind, wp_get]
    cases hst : storeInt base addr v s.table with
    | none => trivial
    | some t => exact ⟨rfl, fun h => absurd h hlow, Stored.refl⟩

/-! ## The call -/

/-- `reapPages` leaves the table of the reap. -/
theorem reapPages_table (r : Reaped) : wp (reapPages L r) (fun v s' => v = r.ret ∧ s'.table = r.table) (fun _ => True) s := by
  unfold reapPages
  rw [wp_bind]
  refine wp_mono wp_trivial (fun k s1 _ => ?_) fun _ h => h
  rw [wp_bind]
  refine wp_mono wp_trivial (fun _ s2 _ => ?_) fun _ h => h
  cases r.pgdir with
  | none => trivial
  | some d =>
    rw [wp_bind]
    exact wp_mono wp_trivial (fun _ s3 _ => ⟨rfl, rfl⟩) fun _ h => h

/-- What a call that finds a zombie comes to, if it does not stop the machine: the table is as the pass over the table alone has it, and
an address below the kernel may be written. -/
theorem waitxFound_some (x y : Int) (hd : (s.table.proc cur).pgdir = some d) (ha : Apart s.phys.mem d) :
    wp (waitxFound L base cur x y i)
      (fun r s' => (∃ q, waitxReap base x y i s.table = some q ∧ r = .returns q.ret ∧ s'.table = q.table) ∧
        (uintOf x + 4 ≤ KERNBASE → ∀ j < 4, Writable s.phys.mem d (uintOf x + j)) ∧
        (uintOf y + 4 ≤ KERNBASE → ∀ j < 4, Writable s.phys.mem d (uintOf y + j)))
      (fun _ => True) s := by
  unfold waitxFound
  simp only [wp_bind, wp_get, hd, wp_useFrame_some]
  refine wp_mono (storeWord_some _ _ ha) (fun _ s1 h1 => ?_) fun _ h => h
  obtain ⟨ht1, hw1, hs1⟩ := h1
  rw [wp_bind]
  refine wp_mono (storeWord_some _ _ (hs1.apart ha)) (fun _ s2 h2 => ?_) fun _ h => h
  obtain ⟨ht2, hw2, -⟩ := h2
  simp only [wp_bind, wp_get]
  refine wp_mono (reapPages_table _) (fun v s3 h3 => ⟨⟨waitReap i s2.table, ?_, ?_, h3.2⟩, hw1, fun hlow j hj => ?_⟩) fun _ h => h
  · simp only [waitxReap, ht1, Option.bind_some, ht2, Option.map_some]
    rfl
  · rw [h3.1]
  · exact (hs1.writable ha).mp (hw2 hlow j hj)

/-- What a call that finds a zombie does when its addresses are in the process and may be written. -/
theorem waitxFound_fits {x y : Int} (hR : Reapable L s cur) (hz : (s.table.proc i).state = .zombie)
    (hd : (s.table.proc cur).pgdir = some d) (hlow : ∀ addr, addr = uintOf x ∨ addr = uintOf y → addr + 4 ≤ KERNBASE)
    (hw : ∀ addr, addr = uintOf x ∨ addr = uintOf y → ∀ j < 4, Writable s.phys.mem d (addr + j)) :
    wp (waitxFound L base cur x y i)
      (fun r s' => ∃ v, r = .returns v ∧ s'.table = (waitReap i s.table).table ∧ WritesOnly d (uintOf x) (uintOf y) s s') E s := by
  have ha : Apart s.phys.mem d := by
    obtain ⟨d', hd', hout⟩ := hR.caller
    obtain rfl : d' = d := Option.some.inj (hd'.symm.trans hd)
    exact hout
  obtain ⟨k, e, hk, he, hman, hstack, hT⟩ := hR.child i hz
  have hlt : ∀ a, Word (uintOf y) a → a < 2 ^ 32 := by
    intro a hY
    have := hlow _ (Or.inr rfl)
    simp only [Word, KERNBASE] at *
    omega
  unfold waitxFound
  simp only [wp_bind, wp_get, hd, wp_useFrame_some]
  refine wp_mono (storeWord_user ha (hlow _ (Or.inl rfl))) (fun _ s1 h1 => ?_) fun _ hno => absurd (hw _ (Or.inl rfl)) hno
  obtain ⟨he1, -, hs1⟩ := h1
  rw [wp_bind]
  refine wp_mono (storeWord_user (hs1.apart ha) (hlow _ (Or.inr rfl))) (fun _ s2 h2 => ?_) fun _ hno => ?_
  swap
  · exact absurd (fun j hj => (hs1.writable ha).mpr (hw _ (Or.inr rfl) j hj)) hno
  obtain ⟨he2, -, hs2⟩ := h2
  have hs := hs1.trans ha hlt hs2
  have htab : s2.table = s.table := by rw [he2, he1]
  -- the stores have left the address space of the child alone
  have htree : ∀ f, InTree s.phys.mem e f → s2.phys.mem f = s.phys.mem f := fun f => hs.tree (hR.apart i d e hz hd he)
  have hstack2 : ¬ InTree s2.phys.mem e k := by rwa [inTree_congr (htree e InTree.self)]
  simp only [wp_bind, wp_get, htab]
  refine wp_mono (reapPages_frame (r := waitReap i s.table) hk he hman hstack2 (hT.congr htree)) (fun v s3 h3 => ?_) fun _ h => h
  obtain ⟨-, ht3, hr3, hk3, hm3⟩ := h3
  refine ⟨v, rfl, ht3, fun f off hoff hfree hx hy => ?_, ?_, ?_⟩
  · rw [(hm3 f).resolve_right hfree]
    refine hs.bytes f off hoff fun a hX hat => ?_
    have hholds : ∀ addr, Word addr a → Holds s.phys.mem d addr f off := by
      intro addr hword
      refine ⟨a - addr, by have := hword.2; omega, ?_⟩
      rwa [Nat.add_sub_cancel' hword.1]
    exact hX.elim (fun h => hx (hholds _ h)) fun h => hy (hholds _ h)
  · rw [hr3, he2, he1]
  · rw [hk3, he2, he1]

/-- A turn that finds a zombie. -/
theorem waitxTurn_of_zombie {x y : Int} (hscan : waitScan (.waitx x y) cur s.table false slots = .zombie i) :
    waitxTurn L base cur x y s = waitxFound L base cur x y i s := by
  simp only [waitxTurn, bind, StateT.bind, get, getThe, MonadStateOf.get, StateT.get, Except.bind, pure, Except.pure, hscan]

end WaitxAux

open WaitxAux LifeAux

/-- In every kernel state in which the zombies can be reaped, for every caller and all arguments: `sys_waitx` writes only where the
caller may write exactly when, if it finds a zombie child, both addresses are in the process and may be written. -/
theorem waitx_writes_iff (L : Layout) (base : Nat) (s : Kern) (cur : Slot) (a b : Arg) (h : Reapable L s cur) :
    WaitxWrites s cur a b (sysWaitx L base cur a b s) ↔ WaitxFits s cur a b := by
  obtain ⟨d, hd, ha⟩ := h.caller
  have hfail : ∀ a b : Arg, WaitxWrites s cur a b (.ok (.returns (-1), s)) := fun _ _ => Or.inl ⟨rfl, rfl⟩
  cases a with
  | none => exact ⟨fun _ x y i e hx => absurd hx (by simp), fun _ => hfail _ _⟩
  | some x =>
    cases b with
    | none => exact ⟨fun _ x y i e _ hy => absurd hy (by simp), fun _ => hfail _ _⟩
    | some y =>
      cases hscan : waitScan (.waitx x y) cur s.table false slots with
      | none havekids =>
        refine ⟨fun _ x' y' i e hx hy hz => ?_, fun _ => ?_⟩
        · cases hx
          cases hy
          rw [hscan] at hz
          cases hz
        · have hrun : wp (sysWaitx L base cur (some x) (some y)) (fun r s' => WaitxWrites s cur (some x) (some y) (.ok (r, s')))
              (fun _ => False) s := by
            simp only [sysWaitx, waitxTurn, wp_bind, wp_get, hscan, wp_ite, wp_pure, wp_onTable]
            exact ⟨fun _ => hfail _ _, fun _ => rfl⟩
          obtain ⟨r, s', heq, hr⟩ := exists_of_wp hrun
          rwa [heq]
      | zombie i =>
        have hz := (waitScan_zombie hscan).1
        have heq : sysWaitx L base cur (some x) (some y) s = waitxFound L base cur x y i s := waitxTurn_of_zombie hscan
        rw [heq]
        constructor
        · intro hwrites x' y' i' e hx hy _ he addr haddr
          cases hx
          cases hy
          obtain rfl : d = e := Option.some.inj (hd.symm.trans he)
          cases hrun : waitxFound L base cur x y i s with
          | error err =>
            rw [hrun] at hwrites
            exact hwrites.elim
          | ok q =>
            obtain ⟨r, s'⟩ := q
            obtain ⟨⟨q, hq, rfl, ht⟩, hwx, hwy⟩ := wp_ok (waitxFound_some x y hd ha) hrun
            rw [hrun] at hwrites
            rcases hwrites with ⟨-, rfl⟩ | ⟨x', y', d', hx, hy, -, hinx, hiny, -⟩
            · -- the slot of the child is not a zombie any more
              exfalso
              simp only [waitxReap, Option.bind_eq_some_iff, Option.map_eq_some_iff] at hq
              obtain ⟨t1, -, t2, -, rfl⟩ := hq
              rw [ht] at hz
              simp at hz
            · cases hx
              cases hy
              rcases haddr with rfl | rfl
              · exact ⟨hinx, hwx hinx.2⟩
              · exact ⟨hiny, hwy hiny.2⟩
        · intro hfits
          have hall := hfits x y i d rfl rfl hscan hd
          have hfound : wp (waitxFound L base cur x y i) _ (fun _ => False) s :=
            waitxFound_fits h hz hd (fun addr haddr => (hall addr haddr).1.2) fun addr haddr => (hall addr haddr).2
          obtain ⟨r, s', hrun, v, rfl, -, honly⟩ := exists_of_wp hfound
          rw [hrun]
          exact Or.inr ⟨x, y, d, rfl, rfl, hd, (hall _ (Or.inl rfl)).1, (hall _ (Or.inr rfl)).1, honly⟩

/-- In every run that keeps memory in order, every process that is in use can reap. -/
theorem reapable_of_memOk {L : Layout} {base : Nat} {s : Kern} {cur : Slot} (h : (memSys L base).Reach (MemOk L base) s)
    (hused : (s.table.proc cur).state ≠ .unused) : Reapable L s cur := by
  obtain ⟨own, sh, hk⟩ := kernInv_of_memOk h
  exact hk.reapable hused

/-! ## A child to reap -/

/-- init has the page directory 2001 and its child, which has exited, 2003. -/
@[irreducible] def exitedTable : Table :=
  (((procSys sampleAddrs).run (.boot 2000 2001)
    [.dispatch 0, .fork 0, .forkStack 0 (some 2002), .forkCopy 0 (some 2003), .forkPublish 0, .dispatch 1, .exitClose 1, .exit 1]).get
      (by decide +kernel)).table

/-- The page table of init is 2004 and its one page 2005; the child's directory is empty. -/
def exitedMem : Mem := fun f i =>
  if f = 2001 ∧ i = 0 then 2004 * PGSIZE + 7 else if f = 2004 ∧ i = 0 then 2005 * PGSIZE + 7 else 0

def exitedKern : Kern where
  phys := { freelist := [], mem := exitedMem, refreed := false }
  table := exitedTable
  regions := fun _ => { page := none, refcnt := 0 }
  shmPages := fun _ => none

namespace WaitxAux

theorem exited_zombie : ∀ i, (exitedTable.proc i).state = .zombie → i = 1 := by decide +kernel

theorem exited_init : (exitedTable.proc 0).pgdir = some 2001 ∧ (exitedTable.proc 0).sz = 4096 := by decide +kernel

theorem exited_child : (exitedTable.proc 1).state = .zombie ∧ (exitedTable.proc 1).pgdir = some 2003 ∧
    (exitedTable.proc 1).kstack = some 2002 := by decide +kernel

/-- The store of the child's waiting time, 0, into the size of init. -/
theorem exited_store : (storeInt sampleAddrs.procs (uintOf (-2146357932))
    (int32 ((exitedTable.proc 1).etime - (exitedTable.proc 1).ctime - (exitedTable.proc 1).rtime)) exitedTable).map
      (fun t => ((t.proc 0).sz, (t.proc 1).kstack, (t.proc 1).pgdir, (t.proc 1).pid)) = some (0, some 2002, some 2003, 2) := by
  decide +kernel

theorem exited_inTree {f : Frame} : InTree exitedMem 2001 f ↔ f = 2001 ∨ f = 2004 := by
  refine or_congr Iff.rfl ⟨?_, ?_⟩
  · rintro ⟨k, -, hP, rfl⟩
    by_cases hk : k = 0
    · subst hk
      decide
    · simp [exitedMem, hk] at hP
  · rintro rfl
    exact ⟨0, by decide, by decide, by decide⟩

theorem exited_mapped {v : Nat} (hv : Mapped exitedMem 2001 v) : v = 0 := by
  by_contra hne
  unfold Mapped pte at hv
  split at hv
  · rename_i hP
    have hk : v / 1024 = 0 := by
      by_contra hk
      simp [exitedMem, hk] at hP
    have hmod : v % 1024 ≠ 0 := by omega
    rw [hk] at hv
    simp [exitedMem, pteFrame, PGSIZE, hmod] at hv
  · simp at hv

/-- The page of init may be written. -/
theorem exited_writable {addr : Nat} (h : addr + 4 ≤ PGSIZE) : ∀ j < 4, Writable exitedMem 2001 (addr + j) := by
  intro j hj
  have hdx : pdx (addr + j) = 0 := by
    simp only [pdx, PGSIZE] at *
    omega
  have htx : ptx (addr + j) = 0 := by
    simp only [ptx, PGSIZE] at *
    omega
  unfold Writable
  rw [hdx, htx]
  decide

theorem exited_empty {f : Frame} : InTree exitedMem 2003 f ↔ f = 2003 := by
  simp [InTree, exitedMem]

theorem exited_reapable : Reapable sampleLayout exitedKern 0 := by
  refine ⟨⟨2001, exited_init.1, fun v _ hm => ?_⟩, fun i hz => ?_, fun i d e hz hd he v _ hm => ?_⟩
  · rw [exited_mapped hm]
    show ¬ InTree exitedMem 2001 _
    rw [exited_inTree]
    decide
  · obtain rfl := exited_zombie i hz
    refine ⟨2002, 2003, exited_child.2.2, exited_child.2.1, by decide, ?_, fun f hf => ?_, fun k _ hP => ?_, fun v _ hm => ?_⟩
    · show ¬ InTree exitedMem 2003 _
      rw [exited_empty]
      decide
    · obtain rfl := exited_empty.mp hf
      decide
    · simp [exitedKern, exitedMem] at hP
    · simp [exitedKern, Mapped, pte, exitedMem] at hm
  · obtain rfl := exited_zombie i hz
    obtain rfl : d = 2001 := Option.some.inj (hd.symm.trans exited_init.1)
    obtain rfl : e = 2003 := Option.some.inj (he.symm.trans exited_child.2.1)
    rw [exited_mapped hm]
    show ¬ InTree exitedMem 2003 _
    rw [exited_empty]
    decide

end WaitxAux

/-- init waits with two addresses in its page, and the call writes only there. -/
theorem waitx_writes_page :
    WaitxWrites exitedKern 0 (some 16) (some 4092) (sysWaitx sampleLayout sampleAddrs.procs 0 (some 16) (some 4092) exitedKern) ∧
    waitScan (.waitx 16 4092) 0 exitedTable false slots = .zombie 1 := by
  constructor
  · refine (waitx_writes_iff sampleLayout sampleAddrs.procs exitedKern 0 (some 16) (some 4092) exited_reapable).mpr ?_
    unfold WaitxFits
    intro x y i d hx hy _ hd addr haddr
    rw [← Option.some.inj hx, ← Option.some.inj hy] at haddr
    obtain rfl : d = 2001 := Option.some.inj (hd.symm.trans exited_init.1)
    have hsz : (exitedKern.table.proc 0).sz = 4096 := exited_init.2
    rw [hsz]
    rcases haddr with rfl | rfl
    · exact ⟨by decide, exited_writable (by decide)⟩
    · exact ⟨by decide, exited_writable (by decide)⟩
  · decide +kernel

/-- init waits with the address of the size in its own slot of the process table, 0x80112d54: the call returns the pid of the child, and
the size of init is zero. -/
theorem waitx_writes_table :
    ∃ s', sysWaitx sampleLayout sampleAddrs.procs 0 (some (-2146357932)) (some 16) exitedKern = .ok (.returns 2, s') ∧
    uintOf (-2146357932) = 0x80112d54 ∧ (exitedKern.table.proc 0).sz = 4096 ∧ (s'.table.proc 0).sz = 0 ∧
    ¬ WaitxWrites exitedKern 0 (some (-2146357932)) (some 16)
      (sysWaitx sampleLayout sampleAddrs.procs 0 (some (-2146357932)) (some 16) exitedKern) := by
  have hrun : wp (sysWaitx sampleLayout sampleAddrs.procs 0 (some (-2146357932)) (some 16))
      (fun r s' => r = .returns 2 ∧ (s'.table.proc 0).sz = 0) (fun _ => False) exitedKern := by
    have hscan : waitScan (.waitx (-2146357932) 16) 0 exitedKern.table false slots = .zombie 1 := by decide +kernel
    have hd : (exitedKern.table.proc 0).pgdir = some 2001 := exited_init.1
    have ha : Apart exitedKern.phys.mem 2001 := fun v hv hm hin => by
      obtain ⟨d, hd', hout⟩ := exited_reapable.caller
      obtain rfl : d = 2001 := Option.some.inj (hd'.symm.trans hd)
      exact hout v hv hm hin
    simp only [sysWaitx, waitxTurn, wp_bind, wp_get, hscan, waitxFound, hd, wp_useFrame_some]
    -- the first store is into the table
    obtain ⟨t, ht, hfields⟩ := Option.map_eq_some_iff.mp exited_store
    refine wp_mono (storeWord_table (s := exitedKern) (by decide) ht) (fun _ s1 h1 => ?_) fun _ h => h
    subst h1
    obtain ⟨hsz, hk, he, hpid⟩ : (t.proc 0).sz = 0 ∧ (t.proc 1).kstack = some 2002 ∧ (t.proc 1).pgdir = some 2003 ∧ (t.proc 1).pid = 2 := by
      simpa using hfields
    rw [wp_bind]
    refine wp_mono (storeWord_user ha (by decide)) (fun _ s2 h2 => ?_) fun _ hno => absurd (exited_writable (by decide)) hno
    obtain ⟨he2, -, hs2⟩ := h2
    have htree : ∀ f, InTree exitedMem 2003 f → s2.phys.mem f = exitedMem f := fun f =>
      hs2.tree (exited_reapable.apart 1 2001 2003 exited_child.1 hd exited_child.2.1)
    obtain ⟨k, e, hk', he', hman, hout, hT⟩ := exited_reapable.child 1 exited_child.1
    obtain rfl : k = 2002 := Option.some.inj (hk'.symm.trans exited_child.2.2)
    obtain rfl : e = 2003 := Option.some.inj (he'.symm.trans exited_child.2.1)
    have htab : s2.table = t := by rw [he2]
    have hout2 : ¬ InTree s2.phys.mem 2003 2002 := by rwa [inTree_congr (htree 2003 InTree.self)]
    simp only [wp_bind, wp_get, htab]
    refine wp_mono (reapPages_frame (r := waitReap 1 t) hk he hman hout2 (hT.congr htree)) (fun v s3 h3 => ⟨?_, ?_⟩) fun _ h => h
    · rw [h3.1]
      exact congrArg WaitEnd.returns hpid
    · rw [h3.2.1]
      unfold waitReap
      rw [modify_proc_of_ne _ _ (by decide)]
      exact hsz
  obtain ⟨r, s', hs', rfl, hsz⟩ := exists_of_wp hrun
  refine ⟨s', hs', by decide, exited_init.2, hsz, fun hwrites => ?_⟩
  rw [hs'] at hwrites
  rcases hwrites with ⟨hv, -⟩ | ⟨x, y, d, hx, -, -, hin, -⟩
  · exact absurd hv (by decide)
  · rw [← Option.some.inj hx] at hin
    exact absurd hin.2 (by decide)

end OsLab
