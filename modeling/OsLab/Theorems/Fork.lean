import OsLab.Lemmas.Fork
import OsLab.Lemmas.MemRuns
import OsLab.Lemmas.ShortRuns

/-!
# What the forks leave, and how they differ

`fork2` is `fork` with one field of the child replaced, also where it fails, and a fork that fails leaves no trace: whatever the number
of free pages, the pages that were taken on the way are free again, and nothing else has been touched.
-/

namespace OsLab

open Cmd

variable {L : Layout} {s s' : FileKern} {cur np : Slot} {E : Panic → Prop}

namespace ForkAux

open FileKern

/-! ## The priority -/

/-- The slot of the child, when a fork has one; a fork that gets none leaves the slot unused. -/
theorem allocproc_child (priority : Int) :
    wp allocproc
      (fun r s1 => match r with
        | none => withChildPriority s priority s1 = s1
        | some np => freeSlot s.kern.table = some np) (fun _ => True) s := by
  refine allocproc_wp (fun hfs => ?_) (fun np hfs _ => ?_) fun np k l hfs _ => hfs
  · simp only [withChildPriority, hfs]
  · simp only [withChildPriority, hfs, allocprocStack, modify_proc_self]
    rfl

/-- A slot left unused has no priority to replace. -/
theorem withChildPriority_unused {priority : Int} (hfs : freeSlot s.kern.table = some np)
    (h : (s'.kern.table.proc np).state = .unused) : withChildPriority s priority s' = s' := by
  unfold withChildPriority
  simp only [hfs, h]
  rfl

/-- The priority of a child may be written before it is made runnable, or after. -/
theorem forkDone_priority {Q : Int → FileKern → Prop} {s1 : FileKern} (priority : Int) (hfs : freeSlot s.kern.table = some np) :
    wp (forkDone cur np) Q E (s1.onSlot np fun p => { p with priority := priority }) ↔
      wp (forkDone cur np) (fun r s' => Q r (withChildPriority s priority s')) E s1 := by
  unfold forkDone
  simp only [wp_bind, wp_get, wp_assign, wp_pure, onSlot_proc_self]
  have hrun : withChildPriority s priority (s1.onSlot np fun p => { p with state := .runnable }) =
      (s1.onSlot np fun p => { p with priority := priority }).onSlot np fun p => { p with state := .runnable } := by
    unfold withChildPriority
    simp only [hfs, onSlot_proc_self]
    rw [if_neg (fun he => by cases he)]
    unfold onSlot
    simp only [modify_modify]
  rw [hrun]

/-- The conditions of `fork2` are those of `fork`, with the priority of the child replaced. -/
theorem fork2_conditions {priority : Int} (hp : ¬ (priority < 0 ∨ priority > 100)) (Q : Int → FileKern → Prop) :
    wp (FileKern.fork2 L cur priority) Q E s ↔ wp (FileKern.fork L cur) (fun r s' => Q r (withChildPriority s priority s')) E s := by
  rw [fork2_parts L cur hp, fork_parts]
  unfold forkParts
  rw [wp_bind, wp_bind]
  refine wp_congr (allocproc_child priority) fun r s1 h1 => ?_
  rcases r with _ | np
  · simp only [wp_pure, h1]
  rw [wp_bind, wp_bind]
  refine wp_congr wp_trivial fun d s2 _ => ?_
  rcases d with _ | d
  · -- the failure path ends with the slot unused
    unfold forkBack
    simp only [wp_bind, wp_assign, wp_get, wp_onKern, wp_pure]
    refine wp_congr wp_trivial fun f s3 _ => wp_congr wp_trivial fun _ s4 _ => ?_
    rw [withChildPriority_unused h1 (by simp only [onSlot_proc_self])]
  · unfold forkChild2
    simp only [wp_bind]
    exact wp_congr wp_trivial fun _ s3 _ => forkDone_priority priority h1

/-! ## Failure -/

/-- What a fork gives back when it fails: the slot, and the pages. -/
theorem noTrace_of_restored {t : Table} {p : Phys} (hfs : freeSlot s.kern.table = some np) (hp : Restored s.kern.phys p)
    (hothers : ∀ i, i ≠ np → t.proc i = s.kern.table.proc i) (hnp : (t.proc np).state = .unused)
    (hinit : t.initproc = s.kern.table.initproc) (hticks : t.ticks = s.kern.table.ticks) :
    NoTrace s { s with kern := { s.kern with phys := p, table := t } } := by
  have hfree := freeSlot_unused hfs
  have hne : ∀ i, (s.kern.table.proc i).state ≠ .unused → i ≠ np := fun i hi he => hi (he ▸ hfree)
  refine ⟨hp.free, hp.mem, fun i d _ _ hout => ⟨fun f => ?_, fun v hv => ?_⟩, fun i hi => hothers i (hne i hi), fun i => ?_,
    ⟨hinit, hticks⟩, rfl, rfl, rfl, rfl⟩
  · exact inTree_congr (hp.mem d (hout d InTree.self))
  · exact pte_of_tree (fun f hf => hp.mem f (hout f hf)) hv
  · by_cases hi : i = np
    · rw [hi]
      exact ⟨fun _ => hfree, fun _ => hnp⟩
    · show (t.proc i).state = _ ↔ _
      rw [hothers i hi]

theorem NoTrace.refl : NoTrace s s :=
  ⟨List.Perm.refl _, fun _ _ => rfl, fun _ _ _ _ _ => ⟨fun _ => Iff.rfl, fun _ _ => rfl⟩, fun _ _ => rfl, fun _ => Iff.rfl,
    ⟨rfl, rfl⟩, rfl, rfl, rfl, rfl⟩

/-- A `fork` that returns -1 has left no trace. -/
theorem fork_noTrace (hnd : s.kern.phys.freelist.Nodup) (hpid : s.kern.table.nextpid ≠ -1) :
    wp (FileKern.fork L cur) (fun r s' => r = -1 → NoTrace s s') (fun _ => True) s := by
  rw [fork_parts]
  unfold forkParts
  rw [wp_bind]
  refine allocproc_wp (fun _ _ => NoTrace.refl) (fun np hfs _ _ => ?_) fun np k l hfs hl => ?_
  · -- no page for the kernel stack
    refine noTrace_of_restored hfs ⟨List.Perm.refl _, fun _ _ => rfl⟩ (fun i hi => ?_) (by simp [allocprocStack]) rfl rfl
    rw [allocprocStack_of_ne hi, allocprocFound_of_ne hi]
  have hstack : ((allocprocStack np (some k) (allocprocFound np s.kern.table)).proc np).kstack = some k := by simp [allocprocStack]
  have hnum : ((allocprocStack np (some k) (allocprocFound np s.kern.table)).proc np).pid = s.kern.table.nextpid := by
    simp [allocprocStack, allocprocFound]
  have hnd1 : l.Nodup := (List.nodup_cons.mp (hl ▸ hnd)).2
  refine wp_bind.mpr (forkMem_wp (fun _ => trivial) fun d _ => ?_)
  refine wp_mono (copyuvm_restored hnd1) (fun r p1 h1 => ?_) fun _ he => he
  rcases r with _ | d
  · -- no copy: the pages of the copy are free again, and then the stack
    refine forkBack_wp hstack (kfree_list fun p2 hmem hl2 _ => ?_)
    have h1 := h1 rfl
    refine noTrace_of_restored hfs ⟨?_, fun f hf => ?_⟩ (fun i hi => ?_) (by simp [forkFail]) rfl rfl
    · rw [hl2, hl]
      exact h1.free.cons k
    · rw [hl, List.mem_cons, not_or] at hf
      rw [hmem f hf.1]
      exact h1.mem f hf.2
    · unfold forkFail
      rw [modify_proc_of_ne _ _ hi]
      show (allocprocStack np (some k) (allocprocFound np s.kern.table)).proc i = _
      rw [allocprocStack_of_ne hi, allocprocFound_of_ne hi]
  · -- a fork that succeeds returns the number of the child
    refine wp_call forkChild_pid fun _ s2 h2 => ?_
    unfold forkDone
    simp only [wp_bind, wp_get, wp_assign, wp_pure, h2]
    exact fun hr => absurd (hnum.symm.trans hr) hpid

end ForkAux

open ForkAux

/-- `fork2` is `fork` with a priority. With a priority out of range it returns -1 and leaves the state; otherwise it comes to what `fork`
comes to from the same state, with the priority of the new process replaced if there is one: it returns the same value, and stops with
the same error. -/
theorem fork2_is_fork (L : Layout) (cur : Slot) (priority : Int) (s : FileKern) :
    FileKern.fork2 L cur priority s =
      if priority < 0 ∨ priority > 100 then .ok (-1, s)
      else (FileKern.fork L cur s).map fun x => (x.1, FileKern.withChildPriority s priority x.2) := by
  by_cases hp : priority < 0 ∨ priority > 100
  · unfold FileKern.fork2
    rw [if_pos hp, if_pos hp]
    rfl
  · rw [if_neg hp]
    exact eq_map_of_wp fun Q E => fork2_conditions hp Q

/-- A `fork` or a `fork2` that returns -1 leaves no trace, however many pages were free. The free list is a list of different pages, and
the number of the next process is not -1, which `nextpid` comes to only when it overflows. -/
theorem failed_fork_leaves_no_trace (L : Layout) (cur : Slot) (s s' : FileKern) (hnd : s.kern.phys.freelist.Nodup)
    (hpid : s.kern.table.nextpid ≠ -1)
    (hrun : FileKern.fork L cur s = .ok (-1, s') ∨ ∃ priority, FileKern.fork2 L cur priority s = .ok (-1, s')) : NoTrace s s' := by
  rcases hrun with hrun | ⟨priority, hrun⟩
  · exact wp_ok (fork_noTrace hnd hpid) hrun rfl
  · by_cases hp : priority < 0 ∨ priority > 100
    · unfold FileKern.fork2 at hrun
      rw [if_pos hp] at hrun
      cases hrun
      exact NoTrace.refl
    · refine wp_ok ((fork2_conditions (E := fun _ => True) hp fun r s' => r = -1 → NoTrace s s').mpr ?_) hrun rfl
      refine wp_mono (fork_noTrace hnd hpid) (fun r s1 h1 hr => ?_) fun _ he => he
      have h1 := h1 hr
      -- a fork that failed has no child whose priority could be replaced
      have hsame : FileKern.withChildPriority s priority s1 = s1 := by
        rcases hfs : freeSlot s.kern.table with _ | np
        · simp only [FileKern.withChildPriority, hfs]
        · exact withChildPriority_unused hfs ((h1.unused np).mpr (freeSlot_unused hfs))
      rwa [hsame]

/-- In every run that keeps memory in order the free list is a list of different pages, and no page of the page tables of a process is
on it. -/
theorem freelist_of_memOk {base : Nat} {k : Kern} (h : (memSys L base).Reach (MemOk L base) k) :
    k.phys.freelist.Nodup ∧ ∀ i d, (k.table.proc i).state ≠ .unused → (k.table.proc i).pgdir = some d →
      ∀ f, InTree k.phys.mem d f → f ∉ k.phys.freelist := by
  obtain ⟨own, sh, hk⟩ := kernInv_of_memOk h
  refine ⟨hk.phys.nodup, fun i d hi hd f hf hmem => ?_⟩
  obtain ⟨e, st, hlive⟩ := hk.lives i hi
  obtain rfl : e = d := hlive.pgdir_eq hd
  have htree := hlive.space.treeOf hf
  rw [(hk.phys.free_iff f).mp hmem] at htree
  exact htree

/-! ## A fork without memory -/

/-- The first process, when two pages are left: one for the stack of a child and one for its page directory. -/
def shortOfPages : FileKern where
  kern :=
    { phys := { freelist := [3000, 3001], mem := fun _ _ => 0, refreed := false }
      table := userinit 2000 2001
      regions := fun _ => { page := none, refcnt := 0 }
      shmPages := fun _ => none }
  fileRef _ := 0
  inodeRef _ := 1

theorem shortOfPages_fork : (FileKern.fork sampleLayout 0 shortOfPages).map Prod.fst = .ok (-1) := by decide +kernel

/-- The kernel mappings fail for want of a page table, and both pages are free again. -/
theorem failed_fork_two_pages : ∃ s', FileKern.fork sampleLayout 0 shortOfPages = .ok (-1, s') ∧ NoTrace shortOfPages s' := by
  cases hrun : FileKern.fork sampleLayout 0 shortOfPages with
  | error e =>
    have h := shortOfPages_fork
    rw [hrun] at h
    cases h
  | ok x =>
    have h := shortOfPages_fork
    rw [hrun] at h
    have hx : x = (-1, x.2) := Prod.ext (Except.ok.inj h) rfl
    rw [hx] at hrun
    exact ⟨x.2, by rw [← hx], failed_fork_leaves_no_trace sampleLayout 0 shortOfPages x.2 (by decide) (by decide) (Or.inl hrun)⟩

end OsLab
