import OsLab.Fork
import OsLab.Lemmas.Ledger

/-!
# Fork with files

What the statements of `fork` do to the state, one by one, and that they come to what `MemCalls` has for memory and the table.
-/

namespace OsLab

open Cmd

variable {L : Layout} {s s' : FileKern} {cur np : Slot} {E : Panic → Prop} {priority : Int} {d : Frame}

@[simp] theorem wp_onKern {α : Type} {x : KernM α} {Q : α → FileKern → Prop} :
    wp (onKern x) Q E s ↔ wp x (fun a k => Q a { s with kern := k }) E s.kern := wp_zoom

namespace FileKern

/-! ## Slots -/

/-- A slot changed. -/
def onSlot (s : FileKern) (np : Slot) (g : Proc → Proc) : FileKern :=
  { s with kern := { s.kern with table := s.kern.table.modify np g } }

@[simp] theorem wp_assign {f : Proc → Proc → Proc} {Q : Unit → FileKern → Prop} :
    wp (assign cur np f) Q E s ↔ Q () (s.onSlot np (f (s.kern.table.proc cur))) := Iff.rfl

@[simp] theorem onSlot_proc_self (g : Proc → Proc) : (s.onSlot np g).kern.table.proc np = g (s.kern.table.proc np) :=
  modify_proc_self s.kern.table np g

theorem modify_modify (t : Table) (np : Slot) (g h : Proc → Proc) : (t.modify np g).modify np h = t.modify np fun p => h (g p) := by
  unfold Table.modify
  simp

/-- Two writes to a slot come to one. -/
theorem onSlot_onSlot (g h : Proc → Proc) : (s.onSlot np g).onSlot np h = s.onSlot np fun p => h (g p) := by
  unfold onSlot
  simp only [modify_modify]

theorem onSlot_proc_of_ne (g : Proc → Proc) (h : cur ≠ np) : (s.onSlot np g).kern.table.proc cur = s.kern.table.proc cur :=
  modify_proc_of_ne s.kern.table g h

/-- `allocproc`: there is no unused slot, or no page for the stack and the slot is given back, or both are there. -/
theorem allocproc_wp {Q : Option Slot → FileKern → Prop} (hfull : freeSlot s.kern.table = none → Q none s)
    (hnone : ∀ np, freeSlot s.kern.table = some np → s.kern.phys.freelist = [] →
      Q none { s with kern := { s.kern with table := allocprocStack np none (allocprocFound np s.kern.table) } })
    (hsome : ∀ np k l, freeSlot s.kern.table = some np → s.kern.phys.freelist = k :: l →
      Q (some np) { s with kern := { s.kern with
        phys := { s.kern.phys with freelist := l }
        table := allocprocStack np (some k) (allocprocFound np s.kern.table) } }) : wp allocproc Q E s := by
  unfold allocproc allocprocClaim
  simp only [wp_bind, wp_get]
  rcases hfs : freeSlot s.kern.table with _ | np
  · exact hfull hfs
  · simp only [wp_bind, wp_onKern, wp_onTable, wp_onPhys]
    refine kalloc_list (fun hl => ?_) fun k l hl => ?_
    · rw [if_pos rfl]
      exact hnone np hfs hl
    · rw [if_neg (fun he => by cases he)]
      exact hsome np k l hfs hl

/-- The open files that the child gets: those of the parent, where it has any. -/
def copyOpen (c : Fin NOFILE → Option Nat) (is : List (Fin NOFILE)) (o : Fin NOFILE → Option Nat) : Fin NOFILE → Option Nat := fun fd =>
  if fd ∈ is ∧ (c fd).isSome then c fd else o fd

theorem copyOpen_nil (c o : Fin NOFILE → Option Nat) : copyOpen c [] o = o := by
  funext fd
  simp [copyOpen]

theorem copyOpen_cons_none {c o : Fin NOFILE → Option Nat} {i : Fin NOFILE} {is : List (Fin NOFILE)} (h : c i = none) :
    copyOpen c (i :: is) o = copyOpen c is o := by
  funext fd
  unfold copyOpen
  by_cases hfd : fd = i
  · simp [hfd, h]
  · simp [hfd]

/-- The copy of an open file, in its place. -/
theorem copyOpen_cons_some {c o : Fin NOFILE → Option Nat} {i : Fin NOFILE} {is : List (Fin NOFILE)} {f : Nat} (h : c i = some f) :
    copyOpen c is (Function.update o i (some f)) = copyOpen c (i :: is) o := by
  funext fd
  unfold copyOpen
  by_cases hfd : fd = i
  · subst hfd
    simp [h]
  · simp [hfd]

/-- The loop over the open files writes `ofile` of the child, and reference counts. -/
theorem dupFiles_wp (is : List (Fin NOFILE)) :
    wp (dupFiles cur np is)
      (fun _ s' => ∃ r, s' = { s.onSlot np (fun p => { p with ofile := copyOpen (s.kern.table.proc cur).ofile is p.ofile }) with
        fileRef := r }) (fun _ => True) s := by
  induction is generalizing s with
  | nil =>
    refine ⟨s.fileRef, ?_⟩
    unfold onSlot Table.modify
    simp only [copyOpen_nil, Function.update_eq_self]
  | cons i is ih =>
    unfold dupFiles
    simp only [wp_bind, wp_get]
    rcases hf : (s.kern.table.proc cur).ofile i with _ | f
    · simp only [copyOpen_cons_none hf]
      exact ih
    · unfold filedup
      simp only [wp_bind, wp_get, wp_ite, wp_throw, wp_set, wp_assign]
      refine ⟨fun _ => trivial, fun _ => ?_⟩
      refine wp_mono ih (fun _ s2 h2 => ?_) fun _ he => he
      obtain ⟨r, rfl⟩ := h2
      refine ⟨r, ?_⟩
      -- the parent's files are as they were, also if it were its own child
      have hopen : ((s.kern.table.modify np fun p => { p with ofile := Function.update p.ofile i (some f) }).proc cur).ofile =
          (s.kern.table.proc cur).ofile := by
        by_cases hcur : cur = np
        · subst hcur
          rw [modify_proc_self]
          exact Function.update_eq_self_iff.mpr hf.symm
        · rw [modify_proc_of_ne _ _ hcur]
      unfold onSlot
      simp only [hopen, modify_modify, copyOpen_cons_some hf]

/-! ## The two models -/

/-- What the statements write into the child, at one go. -/
theorem copyOpen_all (c o : Fin NOFILE → Option Nat) :
    copyOpen c (List.finRange NOFILE) o = fun fd => if (c fd).isSome then c fd else o fd := by
  funext fd
  simp [copyOpen]

/-! ## The parts of a fork -/

/-- The copy of the parent's address space. -/
def forkMem (L : Layout) (cur : Slot) : FileM (Option Frame) := do
  let c := (← get).kern.table.proc cur
  onKern (do onPhys (copyuvm L (← useFrame c.pgdir) c.sz))

/-- What is done when there is no copy. -/
def forkBack (L : Layout) (cur np : Slot) : FileM Int := do
  assign cur np fun _ p => { p with pgdir := none }
  let k := ((← get).kern.table.proc np).kstack
  onKern (do onPhys (kfree L (← useFrame k)))
  assign cur np fun _ p => { p with kstack := none }
  assign cur np fun _ p => { p with state := .unused }
  pure (-1)

/-- What is written into the child when there is one. -/
def forkChild (cur np : Slot) (d : Frame) : FileM Unit := do
  assign cur np fun _ p => { p with pgdir := some d }
  assign cur np fun c p => { p with sz := c.sz }
  assign cur np fun _ p => { p with parent := some cur }
  assign cur np fun c p => { p with tf := c.tf }
  assign cur np fun _ p => { p with tf := { p.tf with eax := 0 } }
  dupFiles cur np (List.finRange NOFILE)
  idup ((← get).kern.table.proc cur).cwd
  assign cur np fun c p => { p with cwd := c.cwd }
  assign cur np fun c p => { p with name := safestrcpy c.name }

/-- The child is made runnable. -/
def forkDone (cur np : Slot) : FileM Int := do
  let pid := ((← get).kern.table.proc np).pid
  assign cur np fun _ p => { p with state := .runnable }
  pure pid

/-- The course of a fork, with what is written into the child as a parameter. -/
def forkParts (L : Layout) (cur : Slot) (fill : Slot → Frame → FileM Unit) : FileM Int := do
  match ← allocproc with
  | none => pure (-1)
  | some np =>
    match ← forkMem L cur with
    | none => forkBack L cur np
    | some d =>
      fill np d
      forkDone cur np

/-- The code of `fork`, in two parts. -/
theorem fork_parts (L : Layout) (cur : Slot) : fork L cur = forkParts L cur (forkChild cur) := by
  unfold fork forkParts forkMem
  refine bind_congr fun r => ?_
  rcases r with _ | np
  · rfl
  · simp only [bind_assoc]
    refine bind_congr fun s => bind_congr fun d => ?_
    rcases d with _ | d
    · rfl
    · simp only [forkChild, forkDone, bind_assoc]
      rfl

/-- `fork2` writes the priority after the rest. -/
def forkChild2 (cur : Slot) (priority : Int) (np : Slot) (d : Frame) : FileM Unit := do
  forkChild cur np d
  assign cur np fun _ p => { p with priority := priority }

/-- The code of `fork2`, with a priority in range. -/
theorem fork2_parts (L : Layout) (cur : Slot) (hp : ¬ (priority < 0 ∨ priority > 100)) :
    fork2 L cur priority = forkParts L cur (forkChild2 cur priority) := by
  unfold fork2 forkParts forkMem
  rw [if_neg hp]
  refine bind_congr fun r => ?_
  rcases r with _ | np
  · rfl
  · simp only [bind_assoc]
    refine bind_congr fun s => bind_congr fun d => ?_
    rcases d with _ | d
    · rfl
    · simp only [forkChild2, forkChild, forkDone, bind_assoc]
      rfl

/-- The failure path gives the kernel stack back. -/
theorem forkBack_wp {Q : Int → FileKern → Prop} {k : Frame} (hk : (s.kern.table.proc np).kstack = some k)
    (h : wp (kfree L k) (fun _ p => Q (-1) { s with kern := { s.kern with phys := p, table := forkFail np s.kern.table } }) E
      s.kern.phys) : wp (forkBack L cur np) Q E s := by
  unfold forkBack
  simp only [wp_bind, wp_assign, wp_get, onSlot_proc_self, hk, wp_onKern, wp_useFrame_some, wp_onPhys, wp_pure]
  refine wp_mono h (fun _ p h1 => ?_) fun _ he => he
  unfold onSlot
  simp only [modify_modify]
  exact h1

theorem idup_wp (ip : Option Nat) : wp (idup ip) (fun _ s' => ∃ r, s' = { s with inodeRef := r }) (fun _ => True) s := by
  unfold idup
  split
  · trivial
  · exact ⟨_, rfl⟩

/-- The statements that fill the child leave its number. -/
theorem forkChild_pid :
    wp (forkChild cur np d) (fun _ s' => (s'.kern.table.proc np).pid = (s.kern.table.proc np).pid) (fun _ => True) s := by
  unfold forkChild
  simp only [wp_bind, wp_assign]
  refine wp_mono (dupFiles_wp _) (fun _ s1 h1 => ?_) fun _ he => he
  obtain ⟨r, rfl⟩ := h1
  simp only [wp_bind, wp_get]
  refine wp_mono (idup_wp _) (fun _ s2 h2 => ?_) fun _ he => he
  obtain ⟨r', rfl⟩ := h2
  simp only [wp_bind, wp_assign, onSlot_proc_self]

/-- They come to `forkCopy`, and to reference counts. -/
theorem forkChild_wp (hne : cur ≠ np) :
    wp (forkChild cur np d)
      (fun _ s' => ∃ fr ir, s' = { kern := { s.kern with table := forkCopy cur np d s.kern.table }, fileRef := fr, inodeRef := ir })
      (fun _ => True) s := by
  obtain ⟨c, hc⟩ : ∃ c, s.kern.table.proc cur = c := ⟨_, rfl⟩
  unfold forkChild
  simp only [wp_bind, wp_assign, onSlot_proc_of_ne _ hne, onSlot_onSlot, hc]
  refine wp_mono (dupFiles_wp _) (fun _ s1 h1 => ?_) fun _ he => he
  obtain ⟨r, rfl⟩ := h1
  simp only [wp_bind, wp_get, onSlot_proc_of_ne _ hne, onSlot_onSlot, hc, copyOpen_all]
  refine wp_mono (idup_wp _) (fun _ s2 h2 => ?_) fun _ he => he
  obtain ⟨r', rfl⟩ := h2
  simp only [wp_bind, wp_assign]
  refine ⟨r, r', ?_⟩
  unfold onSlot forkCopy
  simp only [modify_proc_of_ne _ _ hne, modify_modify, hc]

/-- `forkMem` is a `copyuvm` on the memory. -/
theorem forkMem_wp {Q : Option Frame → FileKern → Prop} (hnull : (s.kern.table.proc cur).pgdir = none → E .null)
    (h : ∀ d, (s.kern.table.proc cur).pgdir = some d →
      wp (copyuvm L d (s.kern.table.proc cur).sz) (fun r p => Q r { s with kern := { s.kern with phys := p } }) E s.kern.phys) :
    wp (forkMem L cur) Q E s := by
  unfold forkMem
  simp only [wp_bind, wp_get, wp_onKern]
  rcases hd : (s.kern.table.proc cur).pgdir with _ | d
  · exact hnull hd
  · simp only [wp_useFrame_some, wp_onPhys]
    exact h d hd

/-! ## Memory and the table -/

/-- A fork whose statements come to `copy` is the one that `MemCalls` has for `copy`. -/
theorem forkParts_of_kern {copy : Slot → Frame → Table → Table} {fill : Slot → Frame → FileM Unit} {Q : Int → Kern → Prop}
    (hfill : ∀ np d s, cur ≠ np → wp (fill np d)
      (fun _ s' => ∃ fr ir, s' = { kern := { s.kern with table := copy np d s.kern.table }, fileRef := fr, inodeRef := ir })
        (fun _ => True) s)
    (hused : (s.kern.table.proc cur).state ≠ .unused) (h : wp (forkWith L cur copy) Q (fun _ => True) s.kern) :
    wp (forkParts L cur fill) (fun r s' => Q r s'.kern) (fun _ => True) s := by
  unfold forkWith allocprocClaim at h
  unfold forkParts
  simp only [wp_bind, wp_get] at h ⊢
  refine allocproc_wp (fun hfs => ?_) (fun np hfs hl => ?_) fun np k l hfs hl => ?_
  · simpa only [hfs, wp_pure] using h
  · simpa only [hfs, wp_bind, wp_onTable, wp_onPhys, wp_kalloc_nil hl, wp_pure] using h
  simp only [hfs, wp_bind, wp_onTable, wp_onPhys, wp_kalloc_cons hl, wp_get] at h
  have hne : cur ≠ np := fun he => hused (he ▸ freeSlot_unused hfs)
  have hk : ((allocprocStack np (some k) (allocprocFound np s.kern.table)).proc np).kstack = some k := by simp [allocprocStack]
  generalize allocprocStack np (some k) (allocprocFound np s.kern.table) = t at h hk ⊢
  refine wp_bind.mpr (forkMem_wp (fun _ => trivial) fun d0 hd => ?_)
  replace hd : (t.proc cur).pgdir = some d0 := hd
  simp only [hd, wp_useFrame_some, wp_bind, wp_onPhys] at h
  refine wp_mono h (fun r p1 h1 => ?_) fun _ he => he
  rcases r with _ | d
  · simp only [wp_bind, wp_onPhys, wp_onTable, wp_pure] at h1
    exact forkBack_wp hk h1
  · simp only [wp_bind, wp_onTable, wp_get, wp_pure] at h1
    refine wp_call (hfill np d _ hne) fun _ s2 h2 => ?_
    obtain ⟨fr, ir, rfl⟩ := h2
    unfold forkDone
    simp only [wp_bind, wp_get, wp_assign, wp_pure]
    unfold forkPublish at h1
    rw [modify_proc_self] at h1
    exact h1

/-- On memory and the table, `fork` is the `fork` of `MemCalls`. -/
theorem fork_kern {r : Int} (hused : (s.kern.table.proc cur).state ≠ .unused) (h : fork L cur s = .ok (r, s')) :
    OsLab.fork L cur s.kern = .ok (r, s'.kern) := by
  have hk : wp (forkWith L cur (forkCopy cur)) (fun r k => OsLab.fork L cur s.kern = .ok (r, k)) (fun _ => True) s.kern :=
    wp_run wp_trivial fun _ _ hr _ => hr
  have hf := forkParts_of_kern (fun np d s hne => forkChild_wp hne) hused hk
  rw [fork_parts] at h
  exact wp_ok (Q := fun r (s' : FileKern) => OsLab.fork L cur s.kern = .ok (r, s'.kern)) hf h

/-- What `fork2` writes into the child comes to `fork2Copy`. -/
theorem forkChild2_wp (hne : cur ≠ np) :
    wp (forkChild2 cur priority np d)
      (fun _ s' => ∃ fr ir, s' =
        { kern := { s.kern with table := fork2Copy cur np priority d s.kern.table }, fileRef := fr, inodeRef := ir })
      (fun _ => True) s := by
  refine wp_call (forkChild_wp hne) fun _ s1 h1 => ?_
  obtain ⟨fr, ir, rfl⟩ := h1
  exact ⟨fr, ir, rfl⟩

/-- On memory and the table, `fork2` is the `fork2` of `MemCalls`. -/
theorem fork2_kern {r : Int} (hused : (s.kern.table.proc cur).state ≠ .unused) (h : fork2 L cur priority s = .ok (r, s')) :
    OsLab.fork2 L cur priority s.kern = .ok (r, s'.kern) := by
  unfold OsLab.fork2
  by_cases hp : priority < 0 ∨ priority > 100
  · unfold fork2 at h
    rw [if_pos hp] at h ⊢
    cases h
    rfl
  · rw [if_neg hp]
    rw [fork2_parts L cur hp] at h
    have hk : wp (forkWith L cur fun np => fork2Copy cur np priority)
        (fun r k => forkWith L cur (fun np => fork2Copy cur np priority) s.kern = .ok (r, k)) (fun _ => True) s.kern :=
      wp_run wp_trivial fun _ _ hr _ => hr
    have hf := forkParts_of_kern (fun np d s hne => forkChild2_wp hne) hused hk
    exact wp_ok (Q := fun r (s' : FileKern) => forkWith L cur (fun np => fork2Copy cur np priority) s.kern = .ok (r, s'.kern)) hf h

end FileKern

end OsLab
