import OsLab.Lib.Run
import Mathlib.Logic.Relation
import Mathlib.Data.Fintype.Basic

/-!
# Spin locks, CPUs and the order of locks

A path through a kernel, cut down to what it does with its spin locks, is a `LockProg`. A machine runs such programs on
any number of CPUs: `acquire` waits while a CPU holds the lock, and a CPU that holds no lock may be interrupted. A kernel
thread that gives up its CPU parks its continuation and the CPU goes on with the scheduler; one lock, `hand`, is held
across that switch and is handed to the thread that is picked next.

`LockProg.check rank` runs through a program and computes the locks held after it, refusing an `acquire` of a lock that is
not above every lock held. When every entry of the kernel passes, the machine has the invariant `Ordered`: a CPU that wants
a lock holds only lower ones (`Ordered.lt_of_wants`). So no cycle of CPUs waits for each other (`Ordered.no_cycle`).
-/

namespace OsLab

/-- What a path through the kernel does with locks `L`. -/
inductive LockProg (L : Type*) where
  | skip
  | acquire (l : L)
  | release (l : L)
  | seq (p q : LockProg L)
  /-- A branch on data. -/
  | alt (p q : LockProg L)
  /-- Any number of rounds. -/
  | loop (p : LockProg L)
  /-- Give the CPU back to the scheduler, and go on from here when picked again. -/
  | park
  /-- The scheduler switches to a parked thread. -/
  | pick
  /-- A new thread joins the parked ones: it will release the lock it is handed and go to user mode. -/
  | spawn
  /-- User mode: any entry of the kernel may be called next. -/
  | user
  /-- The CPU stops. -/
  | halt
  deriving DecidableEq

namespace LockProg

/-- Programs one after the other. -/
def block {L : Type*} : List (LockProg L) → LockProg L
  | [] => skip
  | [p] => p
  | p :: ps => seq p (block ps)

/-- A program that runs or does not. -/
def opt {L : Type*} (p : LockProg L) : LockProg L := alt p skip

variable {L : Type*} [DecidableEq L] (rank : L → Nat) (hand : L)

/-- The locks held after the program when it starts with `h` held; `none` when it takes a lock out of order, releases one
it does not hold, or switches with other locks than `hand`. -/
def check : LockProg L → List L → Option (List L)
  | skip, h => some h
  | acquire l, h => if ∀ l' ∈ h, rank l' < rank l then some (l :: h) else none
  | release l, h => if l ∈ h then some (h.erase l) else none
  | seq p q, h => (p.check h).bind q.check
  | alt p q, h => if p.check h = q.check h then p.check h else none
  | loop p, h => if p.check h = some h then some h else none
  | park, h => if h = [hand] then some h else none
  | pick, h => if h = [hand] then some h else none
  | spawn, h => some h
  | user, h => if h = [] then some h else none
  | halt, _ => some []

/-- The same for a list of programs, one after the other. -/
def checkAll : List (LockProg L) → List L → Option (List L)
  | [], h => some h
  | p :: ps, h => (p.check rank hand h).bind (checkAll ps)

end LockProg

/-- A CPU: the locks it holds, and what it still has to run. -/
structure LockCpu (L : Type*) where
  held : List L
  todo : List (LockProg L)

/-- The CPUs, and the continuations of the threads that are on none. -/
structure LockMachine (C L : Type*) where
  cpu : C → LockCpu L
  parked : List (List (LockProg L))

/-- How a CPU moves. -/
inductive LockMove (E : Type*) where
  /-- The next instruction, where there is no choice. -/
  | go
  /-- The two branches of an `alt`. -/
  | left
  | right
  /-- One more round of a loop, or none. -/
  | again
  | leave
  /-- The scheduler picks the parked thread with this index. -/
  | pick (i : Nat)
  /-- User mode calls an entry of the kernel. -/
  | call (e : E)
  /-- An interrupt. -/
  | intr (e : E)

/-- The entry of the kernel that a move starts, if any. -/
def LockMove.entry {E : Type*} : LockMove E → Option E
  | .call e => some e
  | .intr e => some e
  | _ => none

/-- A kernel: the lock handed over at a switch, the code of its entries, and what a CPU runs after a thread has parked. -/
structure LockKernel (L E : Type*) where
  hand : L
  code : E → LockProg L
  sched : List (LockProg L)

namespace LockMachine

variable {C L E : Type*} [DecidableEq C] [Fintype C] [DecidableEq L]

/-- A CPU put in another state. -/
def setCpu (m : LockMachine C L) (c : C) (x : LockCpu L) : LockMachine C L :=
  { m with cpu := Function.update m.cpu c x }

/-- A CPU with other programs to run. -/
def setTodo (m : LockMachine C L) (c : C) (todo : List (LockProg L)) : LockMachine C L :=
  m.setCpu c { m.cpu c with todo := todo }

/-- One move of a CPU. An `acquire` of a lock that some CPU holds cannot move: the CPU spins. -/
def step (K : LockKernel L E) (m : LockMachine C L) : C × LockMove E → Option (LockMachine C L)
  | (c, .intr e) =>
    if (m.cpu c).held = [] then some (m.setTodo c (K.code e :: (m.cpu c).todo)) else none
  | (c, .go) =>
    match (m.cpu c).todo with
    | .skip :: k => some (m.setTodo c k)
    | .seq p q :: k => some (m.setTodo c (p :: q :: k))
    | .acquire l :: k =>
      if ∀ d, l ∉ (m.cpu d).held then some (m.setCpu c { held := l :: (m.cpu c).held, todo := k }) else none
    | .release l :: k =>
      if l ∈ (m.cpu c).held then some (m.setCpu c { held := (m.cpu c).held.erase l, todo := k }) else none
    | .park :: k => some ({ m with parked := k :: m.parked }.setTodo c K.sched)
    | .spawn :: k => some ({ m with parked := [.release K.hand, .user] :: m.parked }.setTodo c k)
    | _ => none
  | (c, .left) =>
    match (m.cpu c).todo with
    | .alt p _ :: k => some (m.setTodo c (p :: k))
    | _ => none
  | (c, .right) =>
    match (m.cpu c).todo with
    | .alt _ q :: k => some (m.setTodo c (q :: k))
    | _ => none
  | (c, .again) =>
    match (m.cpu c).todo with
    | .loop p :: k => some (m.setTodo c (p :: .loop p :: k))
    | _ => none
  | (c, .leave) =>
    match (m.cpu c).todo with
    | .loop _ :: k => some (m.setTodo c k)
    | _ => none
  | (c, .pick i) =>
    match (m.cpu c).todo, m.parked[i]? with
    | .pick :: _, some k => some ({ m with parked := m.parked.eraseIdx i }.setTodo c k)
    | _, _ => none
  | (c, .call e) =>
    match (m.cpu c).todo with
    | .user :: k => some (m.setTodo c (K.code e :: .user :: k))
    | _ => none

/-- The CPU is at an `acquire` of the lock. -/
def Wants (m : LockMachine C L) (c : C) (l : L) : Prop := ∃ k, (m.cpu c).todo = .acquire l :: k

/-- The CPU `c` is blocked on a lock that `d` holds. -/
def WaitsFor (m : LockMachine C L) (c d : C) : Prop := ∃ l, m.Wants c l ∧ l ∈ (m.cpu d).held

/-- Every CPU, and every parked thread once it is picked, goes through the rest of its code in order. -/
structure Ordered (rank : L → Nat) (hand : L) (m : LockMachine C L) : Prop where
  cpu : ∀ c, (LockProg.checkAll rank hand (m.cpu c).todo (m.cpu c).held).isSome = true
  parked : ∀ k ∈ m.parked, (LockProg.checkAll rank hand k [hand]).isSome = true

end LockMachine

namespace LockOrderAux

open LockProg LockMachine

section

variable {L : Type*} [DecidableEq L] {rank : L → Nat} {hand : L} {l : L} {p q : LockProg L} {h h' : List L}

theorem check_acquire : (acquire l).check rank hand h = some h' ↔ (∀ l' ∈ h, rank l' < rank l) ∧ l :: h = h' := by
  show (if ∀ l' ∈ h, rank l' < rank l then some (l :: h) else none) = some h' ↔ _
  simp

theorem check_release : (release l).check rank hand h = some h' ↔ l ∈ h ∧ h.erase l = h' := by
  show (if l ∈ h then some (h.erase l) else none) = some h' ↔ _
  simp

theorem check_seq :
    (seq p q).check rank hand h = some h' ↔ ∃ h1, p.check rank hand h = some h1 ∧ q.check rank hand h1 = some h' := by
  exact Option.bind_eq_some_iff

theorem check_alt : (alt p q).check rank hand h = some h' ↔
    p.check rank hand h = some h' ∧ q.check rank hand h = some h' := by
  show (if p.check rank hand h = q.check rank hand h then p.check rank hand h else none) = some h' ↔ _
  constructor
  · intro hc
    split at hc
    · rename_i heq
      exact ⟨hc, heq ▸ hc⟩
    · cases hc
  · rintro ⟨h1, h2⟩
    rw [h1, h2, if_pos rfl]

theorem check_loop : (loop p).check rank hand h = some h' ↔ p.check rank hand h = some h ∧ h = h' := by
  show (if p.check rank hand h = some h then some h else none) = some h' ↔ _
  simp

theorem check_park : park.check rank hand h = some h' ↔ h = [hand] ∧ h = h' := by
  show (if h = [hand] then some h else none) = some h' ↔ _
  simp

theorem check_pick : pick.check rank hand h = some h' ↔ h = [hand] ∧ h = h' := by
  show (if h = [hand] then some h else none) = some h' ↔ _
  simp

theorem check_user : user.check rank hand h = some h' ↔ h = [] ∧ h = h' := by
  show (if h = [] then some h else none) = some h' ↔ _
  simp

/-- A list of programs passes when its head does and the rest passes from where the head ends. -/
theorem checkAll_cons {ps : List (LockProg L)} : (checkAll rank hand (p :: ps) h).isSome = true ↔
    ∃ h', p.check rank hand h = some h' ∧ (checkAll rank hand ps h').isSome = true := by
  show ((p.check rank hand h).bind (checkAll rank hand ps)).isSome = true ↔ _
  cases p.check rank hand h <;> simp

/-- The next program of a CPU of an ordered machine passes, and so does what follows it. -/
theorem ordered_head {C : Type*} {m : LockMachine C L} (hO : m.Ordered rank hand) {c : C} {k : List (LockProg L)}
    (htodo : (m.cpu c).todo = p :: k) : ∃ h', p.check rank hand (m.cpu c).held = some h' ∧
      (checkAll rank hand k h').isSome = true := by
  have hc := hO.cpu c
  rwa [htodo, checkAll_cons] at hc

/-- Other parked threads keep the order when each of them passes. -/
theorem ordered_setParked {C : Type*} {m : LockMachine C L} (hO : m.Ordered rank hand) (ks : List (List (LockProg L)))
    (hks : ∀ k ∈ ks, (checkAll rank hand k [hand]).isSome = true) :
    ({ m with parked := ks } : LockMachine C L).Ordered rank hand :=
  ⟨hO.cpu, hks⟩

end

section

variable {C L : Type*} [DecidableEq C] [DecidableEq L] {rank : L → Nat} {hand : L}

/-- Setting a CPU keeps the order when the CPU passes in its new state. -/
theorem ordered_setCpu {m : LockMachine C L} (hO : m.Ordered rank hand) (c : C) (x : LockCpu L)
    (hx : (checkAll rank hand x.todo x.held).isSome = true) : (m.setCpu c x).Ordered rank hand := by
  refine ⟨fun d => ?_, hO.parked⟩
  by_cases hd : d = c
  · subst hd
    simpa [setCpu] using hx
  · simpa [setCpu, Function.update_of_ne hd] using hO.cpu d

theorem ordered_setTodo {m : LockMachine C L} (hO : m.Ordered rank hand) (c : C) (todo : List (LockProg L))
    (hx : (checkAll rank hand todo (m.cpu c).held).isSome = true) : (m.setTodo c todo).Ordered rank hand :=
  ordered_setCpu hO c _ hx

end

end LockOrderAux

namespace LockMachine

open LockProg LockOrderAux

section

variable {C L E : Type*} [DecidableEq C] [Fintype C] [DecidableEq L] {rank : L → Nat} {K : LockKernel L E}
  {m m' : LockMachine C L} {c : C}

/-- The instructions without a choice keep the order. -/
theorem Ordered.step_go (hO : m.Ordered rank K.hand) (hsched : (checkAll rank K.hand K.sched [K.hand]).isSome = true)
    (h : m.step K (c, .go) = some m') : m'.Ordered rank K.hand := by
  simp only [LockMachine.step] at h
  split at h
  · rename_i k htodo
    cases h
    obtain ⟨h', hp, hk⟩ := ordered_head hO htodo
    cases hp
    exact ordered_setTodo hO c k hk
  · rename_i p q k htodo
    cases h
    obtain ⟨h', hp, hk⟩ := ordered_head hO htodo
    obtain ⟨h1, hp, hq⟩ := check_seq.mp hp
    exact ordered_setTodo hO c _ (checkAll_cons.mpr ⟨h1, hp, checkAll_cons.mpr ⟨h', hq, hk⟩⟩)
  · rename_i l k htodo
    split at h
    · cases h
      obtain ⟨h', hp, hk⟩ := ordered_head hO htodo
      obtain ⟨-, rfl⟩ := check_acquire.mp hp
      exact ordered_setCpu hO c _ hk
    · cases h
  · rename_i l k htodo
    split at h
    · cases h
      obtain ⟨h', hp, hk⟩ := ordered_head hO htodo
      obtain ⟨-, rfl⟩ := check_release.mp hp
      exact ordered_setCpu hO c _ hk
    · cases h
  · rename_i k htodo
    cases h
    obtain ⟨h', hp, hk⟩ := ordered_head hO htodo
    obtain ⟨hheld, rfl⟩ := check_park.mp hp
    rw [hheld] at hk
    have hp' : ∀ k' ∈ k :: m.parked, (checkAll rank K.hand k' [K.hand]).isSome = true := by
      intro k' hk'
      rcases List.mem_cons.mp hk' with rfl | hk'
      · exact hk
      · exact hO.parked k' hk'
    refine ordered_setTodo (ordered_setParked hO _ hp') c _ ?_
    show (checkAll rank K.hand K.sched (m.cpu c).held).isSome = true
    rwa [hheld]
  · rename_i k htodo
    cases h
    obtain ⟨h', hp, hk⟩ := ordered_head hO htodo
    cases hp
    refine ordered_setTodo (ordered_setParked hO _ ?_) c k hk
    intro k' hk'
    rcases List.mem_cons.mp hk' with rfl | hk'
    · simp [checkAll, check]
    · exact hO.parked k' hk'
  · cases h

/-- A move keeps the order when the scheduler and the entry the move starts, if any, pass the check. -/
theorem Ordered.step {a : LockMove E} (hO : m.Ordered rank K.hand)
    (hsched : (checkAll rank K.hand K.sched [K.hand]).isSome = true)
    (hcode : ∀ e, a.entry = some e → (K.code e).check rank K.hand [] = some []) (h : m.step K (c, a) = some m') :
    m'.Ordered rank K.hand := by
  cases a with
  | go => exact hO.step_go hsched h
  | intr e =>
    simp only [LockMachine.step] at h
    split at h
    · rename_i hheld
      cases h
      have hc := hO.cpu c
      rw [hheld] at hc
      refine ordered_setTodo hO c _ (checkAll_cons.mpr ⟨[], ?_, hc⟩)
      rw [hheld]
      exact hcode e rfl
    · cases h
  | left =>
    simp only [LockMachine.step] at h
    split at h
    · rename_i p q k htodo
      cases h
      obtain ⟨h', hp, hk⟩ := ordered_head hO htodo
      exact ordered_setTodo hO c _ (checkAll_cons.mpr ⟨h', (check_alt.mp hp).1, hk⟩)
    · cases h
  | right =>
    simp only [LockMachine.step] at h
    split at h
    · rename_i p q k htodo
      cases h
      obtain ⟨h', hp, hk⟩ := ordered_head hO htodo
      exact ordered_setTodo hO c _ (checkAll_cons.mpr ⟨h', (check_alt.mp hp).2, hk⟩)
    · cases h
  | again =>
    simp only [LockMachine.step] at h
    split at h
    · rename_i p k htodo
      cases h
      have hc := hO.cpu c
      rw [htodo] at hc
      obtain ⟨h', hp, -⟩ := ordered_head hO htodo
      exact ordered_setTodo hO c _ (checkAll_cons.mpr ⟨_, (check_loop.mp hp).1, hc⟩)
    · cases h
  | leave =>
    simp only [LockMachine.step] at h
    split at h
    · rename_i p k htodo
      cases h
      obtain ⟨h', hp, hk⟩ := ordered_head hO htodo
      obtain ⟨-, rfl⟩ := check_loop.mp hp
      exact ordered_setTodo hO c k hk
    · cases h
  | pick i =>
    simp only [LockMachine.step] at h
    split at h
    · rename_i _ _ ks k htodo hget
      cases h
      obtain ⟨h', hp, -⟩ := ordered_head hO htodo
      obtain ⟨hheld, -⟩ := check_pick.mp hp
      have hp' : ∀ k' ∈ m.parked.eraseIdx i, (checkAll rank K.hand k' [K.hand]).isSome = true :=
        fun k' hk' => hO.parked k' (List.mem_of_mem_eraseIdx hk')
      refine ordered_setTodo (ordered_setParked hO _ hp') c k ?_
      show (checkAll rank K.hand k (m.cpu c).held).isSome = true
      rw [hheld]
      exact hO.parked k (List.mem_of_getElem? hget)
    · cases h
  | call e =>
    simp only [LockMachine.step] at h
    split at h
    · rename_i k htodo
      cases h
      have hc := hO.cpu c
      rw [htodo] at hc
      obtain ⟨h', hp, -⟩ := ordered_head hO htodo
      obtain ⟨hheld, -⟩ := check_user.mp hp
      rw [hheld] at hc
      refine ordered_setTodo hO c _ (checkAll_cons.mpr ⟨[], ?_, hc⟩)
      rw [hheld]
      exact hcode e rfl
    · cases h

end

section

variable {C L : Type*} [DecidableEq L] {rank : L → Nat} {hand : L} {m : LockMachine C L} {c : C} {l : L}

/-- In an ordered machine a CPU that is at an `acquire` holds only locks below the one it wants. -/
theorem Ordered.lt_of_wants (hO : m.Ordered rank hand) (hw : m.Wants c l) : ∀ l' ∈ (m.cpu c).held, rank l' < rank l := by
  obtain ⟨k, htodo⟩ := hw
  obtain ⟨h', hp, -⟩ := ordered_head hO htodo
  exact (check_acquire.mp hp).1

/-- Along a chain of waiting CPUs the locks they want go up. -/
theorem Ordered.rank_lt_of_chain (hO : m.Ordered rank hand) {d : C} (h : Relation.TransGen m.WaitsFor c d) (hd : m.Wants d l) :
    ∃ l', m.Wants c l' ∧ rank l' < rank l := by
  induction h generalizing l with
  | single hcd =>
    obtain ⟨l', hw, hheld⟩ := hcd
    exact ⟨l', hw, hO.lt_of_wants hd l' hheld⟩
  | tail _ hcd ih =>
    obtain ⟨l1, hw, hheld⟩ := hcd
    obtain ⟨l', hw', hlt⟩ := ih hw
    exact ⟨l', hw', hlt.trans (hO.lt_of_wants hd l1 hheld)⟩

omit [DecidableEq L] in
/-- A CPU wants at most one lock. -/
theorem Wants.unique {l' : L} (h : m.Wants c l) (h' : m.Wants c l') : l = l' := by
  obtain ⟨k, hk⟩ := h
  obtain ⟨k', hk'⟩ := h'
  rw [hk] at hk'
  simpa using (List.cons.inj hk').1

/-- In an ordered machine no CPU waits, through any number of others, for itself. -/
theorem Ordered.no_cycle (hO : m.Ordered rank hand) (c : C) : ¬Relation.TransGen m.WaitsFor c c := by
  intro h
  obtain ⟨d, ⟨l, hw, -⟩, -⟩ := Relation.TransGen.head'_iff.mp h
  obtain ⟨l', hw', hlt⟩ := hO.rank_lt_of_chain h hw
  rw [hw.unique hw'] at hlt
  exact Nat.lt_irrefl _ hlt

end

end LockMachine

/-- A relation that a rank goes up along has no cycle. -/
theorem acyclic_of_rank {L : Type*} {R : L → L → Prop} (rank : L → Nat) (h : ∀ l l', R l l' → rank l < rank l') (l : L) :
    ¬Relation.TransGen R l l := by
  have hlt : ∀ a b, Relation.TransGen R a b → rank a < rank b := by
    intro a b hab
    induction hab with
    | single hab => exact h _ _ hab
    | tail _ hbc ih => exact ih.trans (h _ _ hbc)
  exact fun hl => Nat.lt_irrefl _ (hlt l l hl)

end OsLab
