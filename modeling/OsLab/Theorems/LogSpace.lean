import OsLab.Theorems.Log
import Mathlib.Algebra.Order.BigOperators.Group.List
import Mathlib.Algebra.Order.Ring.Nat

/-!
# Room in the log

`begin_op` lets an operation in when there is room for `MAXOPBLOCKS` blocks of it and of every operation that is running. An operation
that keeps to that many blocks always finds room in `log_write`, and a process that sleeps in `begin_op` sleeps for a reason that
somebody will take away, with a wakeup.
-/

namespace OsLab

open Function (update update_self update_of_ne)
open Cmd

namespace Fs

variable (A : LogArea)

/-- The blocks that each process has logged since its `begin_op`, each of them once, after one more step. -/
def meter (s : Fs) (u : Nat → List Nat) : FsAct → Nat → List Nat
  | .beginOp p => update u p []
  | .logWrite p i _ => update u p ((u p).insert (s.io.bc.buf i).blockno)
  | _ => u

/-- The machine, with these blocks. -/
def metered : Sys (Fs × (Nat → List Nat)) FsAct := (sys A).noting (fun _ _ => True) meter

/-- A process is in one operation at a time, and logs at most `MAXOPBLOCKS` blocks in it; it may log each of them any number of times. -/
def Modest (x : Fs × (Nat → List Nat)) (a : FsAct) : Prop :=
  Kept A x.1 a ∧
    match a with
    | .beginOp p => p ∉ x.1.inOp
    | .logWrite p i _ => (x.1.io.bc.buf i).blockno ∈ x.2 p ∨ (x.2 p).length < MAXOPBLOCKS
    | _ => True

instance (x : Fs × (Nat → List Nat)) : (a : FsAct) → Decidable (Modest A x a)
  | .bget p b => inferInstanceAs (Decidable (Kept A x.1 (.bget p b) ∧ True))
  | .logWrite p i d => inferInstanceAs
    (Decidable (Kept A x.1 (.logWrite p i d) ∧ ((x.1.io.bc.buf i).blockno ∈ x.2 p ∨ (x.2 p).length < MAXOPBLOCKS)))
  | .endOp p => inferInstanceAs (Decidable (Kept A x.1 (.endOp p) ∧ True))
  | .beginOp p => inferInstanceAs (Decidable (True ∧ p ∉ x.1.inOp))
  | .breadLock _ _ => .isTrue ⟨trivial, trivial⟩
  | .releasesleep _ _ => .isTrue ⟨trivial, trivial⟩
  | .bput _ _ => .isTrue ⟨trivial, trivial⟩
  | .commit => .isTrue ⟨trivial, trivial⟩
  | .crash => .isTrue ⟨trivial, trivial⟩
  | .recover => .isTrue ⟨trivial, trivial⟩

/-- The blocks that the operations that are running may still log. -/
def reserved (x : Fs × (Nat → List Nat)) : Nat := (x.1.inOp.map fun p => MAXOPBLOCKS - (x.2 p).length).sum

end Fs

namespace LogSpaceAux

open Fs LogAux

variable {A : LogArea} {s s' : Fs} {a : FsAct} {x : Fs × (Nat → List Nat)} {t : Store} {p : Nat} {u : Nat → List Nat}

/-! ## What a step does to the log in memory -/

/-- A function of `bio.c` leaves the log alone. -/
theorem wp_onIo_frame {α : Type} {x : IoM α} {Q : α → Store → Prop} (h : ∀ b io, Q b { t with io := io }) :
    wp (onIo x) Q (fun _ => True) t := by
  rw [Store.wp_onIo]
  unfold wp
  cases hx : x t.io with
  | error e => exact trivial
  | ok r => exact h r.1 r.2

theorem writeHead_log : wp (writeHead A p) (fun _ u => u.log = t.log) (fun _ => True) t := by
  unfold writeHead
  rw [wp_bind, wp_get, wp_bind]
  refine wp_onIo_frame fun i io => ?_
  rw [wp_bind]
  refine wp_onIo_frame fun _ io' => ?_
  exact wp_onIo_frame fun _ io'' => rfl

/-- Both copying loops read two blocks, write one and let both go. -/
theorem writeLogOne_log {n : Nat} : wp (writeLogOne A p n) (fun _ u => u.log = t.log) (fun _ => True) t := by
  unfold writeLogOne
  rw [wp_bind, wp_get, wp_bind]
  refine wp_onIo_frame fun i io => ?_
  rw [wp_bind]
  refine wp_onIo_frame fun j io => ?_
  rw [wp_bind, wp_get, wp_bind]
  refine wp_onIo_frame fun _ io => ?_
  rw [wp_bind]
  refine wp_onIo_frame fun _ io => ?_
  exact wp_onIo_frame fun _ io => rfl

theorem installOne_log {n : Nat} : wp (installOne A p n) (fun _ u => u.log = t.log) (fun _ => True) t := by
  unfold installOne
  rw [wp_bind, wp_get, wp_bind]
  refine wp_onIo_frame fun i io => ?_
  rw [wp_bind]
  refine wp_onIo_frame fun j io => ?_
  rw [wp_bind, wp_get, wp_bind]
  refine wp_onIo_frame fun _ io => ?_
  rw [wp_bind]
  refine wp_onIo_frame fun _ io => ?_
  exact wp_onIo_frame fun _ io => rfl

/-- An action that neither begins nor ends an operation, and logs no block. -/
def plain : FsAct → Bool
  | .beginOp _ | .logWrite .. | .endOp _ => false
  | _ => true

/-- What a step does to the log in memory, to the operations and to those who sleep. -/
inductive LogStep (s s' : Fs) : FsAct → Prop
  /-- The power goes off. -/
  | crash (hlog : s'.log = Log.zero) (hops : s'.inOp = []) (hsleep : s'.asleep = fun _ => false) : LogStep s s' .crash
  /-- Before `initlog` comes back there are no operations yet. -/
  | recover (hst : s.phase.starting = true) (hops : s'.inOp = s.inOp) (hsleep : s'.asleep = s.asleep) : LogStep s s' .recover
  /-- A buffer is used, or a block is copied. -/
  | buffer (a : FsAct) (hst : s.phase.starting = false) (hst' : s'.phase.starting = false) (hlog : s'.log = s.log)
      (hops : s'.inOp = s.inOp) (hsleep : s'.asleep = s.asleep) (hplain : plain a = true) : LogStep s s' a
  | enter (p : Nat) (hst : s'.phase.starting = false) (hfull : s.log.full = false)
      (hlog : s'.log = { s.log with outstanding := s.log.outstanding + 1 }) (hops : s'.inOp = p :: s.inOp)
      (hsleep : s'.asleep = s.asleep) : LogStep s s' (.beginOp p)
  | sleep (p : Nat) (hst : s'.phase.starting = false) (hfull : s.log.full = true) (hlog : s'.log = s.log) (hops : s'.inOp = s.inOp)
      (hsleep : s'.asleep = update s.asleep p true) : LogStep s s' (.beginOp p)
  | write (p : Nat) (i : Fin NBUF) (d : Block) (hst : s'.phase.starting = false)
      (hlog : s'.log = { s.log with lh := absorb (s.io.bc.buf i).blockno s.log.lh }) (hops : s'.inOp = s.inOp)
      (hsleep : s'.asleep = s.asleep) : LogStep s s' (.logWrite p i d)
  | leave (p : Nat) (hst : s'.phase.starting = false) (hlog : s'.log = { s.log with outstanding := s.log.outstanding - 1 })
      (hops : s'.inOp = s.inOp.erase p) (hsleep : s'.asleep = fun _ => false) : LogStep s s' (.endOp p)
  | last (p : Nat) (hst : s'.phase.starting = false) (hlog : s'.log = { s.log with outstanding := 0, committing := true })
      (hops : s'.inOp = s.inOp.erase p) (hsleep : s'.asleep = s.asleep) : LogStep s s' (.endOp p)
  /-- `commit` has written every block. -/
  | drop (hst : s'.phase.starting = false) (hp : ∃ n, s.phase = .install n) (hlog : s'.log = { s.log with lh := [] })
      (hops : s'.inOp = s.inOp) (hsleep : s'.asleep = s.asleep) : LogStep s s' .commit
  | done (hst : s'.phase.starting = false) (hlog : s'.log = { s.log with committing := false }) (hops : s'.inOp = s.inOp)
      (hsleep : s'.asleep = fun _ => false) : LogStep s s' .commit

theorem LogStep.of_recoverStep (hs : s.recoverStep A = some s') : LogStep s s' .recover := by
  cases hp : s.phase with
  | readHead | erase =>
    simp only [recoverStep, hp, call] at hs
    split at hs
    · cases hs
      exact .recover (by rw [hp]; rfl) rfl rfl
    · cases hs
  | recover n =>
    simp only [recoverStep, hp, call] at hs
    split at hs
    · split at hs
      · cases hs
        exact .recover (by rw [hp]; rfl) rfl rfl
      · cases hs
    · cases hs
      exact .recover (by rw [hp]; rfl) rfl rfl
  | up | writeLog n | writeHead | install n | clear | committed => simp only [recoverStep, hp] at hs; cases hs

theorem LogStep.of_commitStep (hst : s.phase.starting = false) (hs : s.commitStep A = some s') : LogStep s s' .commit := by
  cases hp : s.phase with
  | writeLog n =>
    simp only [commitStep, hp] at hs
    split at hs
    · obtain ⟨-, t, hlog, rfl⟩ := call_of_wp writeLogOne_log hs
      exact .buffer _ hst rfl hlog rfl rfl rfl
    · cases hs
      exact .buffer _ hst rfl rfl rfl rfl rfl
  | writeHead | clear =>
    simp only [commitStep, hp] at hs
    obtain ⟨-, t, hlog, rfl⟩ := call_of_wp writeHead_log hs
    exact .buffer _ hst rfl hlog rfl rfl rfl
  | install n =>
    simp only [commitStep, hp] at hs
    split at hs
    · obtain ⟨-, t, hlog, rfl⟩ := call_of_wp installOne_log hs
      exact .buffer _ hst rfl hlog rfl rfl rfl
    · cases hs
      exact .drop rfl ⟨n, hp⟩ rfl rfl rfl
  | committed =>
    simp only [commitStep, hp] at hs
    cases hs
    exact .done rfl rfl rfl rfl
  | up | readHead | recover n | erase => simp only [commitStep, hp] at hs; cases hs

theorem LogStep.of_step (hs : Fs.step A s a = some s') : LogStep s s' a := by
  cases a with
  | crash =>
    cases hs
    exact .crash rfl rfl rfl
  | recover => exact .of_recoverStep hs
  | commit =>
    simp only [Fs.step, Option.ite_none_left_eq_some, Bool.not_eq_true] at hs
    exact .of_commitStep hs.1 hs.2
  | beginOp p =>
    simp only [Fs.step, Option.ite_none_left_eq_some, Bool.not_eq_true, beginOp] at hs
    obtain ⟨hst, -, hs⟩ := hs
    split at hs
    · rename_i hfull
      cases hs
      exact .sleep p hst hfull rfl rfl rfl
    · rename_i hfull
      cases hs
      exact .enter p hst (Bool.not_eq_true _ ▸ hfull) rfl rfl rfl
  | endOp p =>
    simp only [Fs.step, Option.ite_none_left_eq_some, Bool.not_eq_true, endOp] at hs
    obtain ⟨hst, -, hs⟩ := hs
    split at hs
    · cases hs
      refine .last p ?_ rfl rfl rfl
      dsimp only
      split <;> rfl
    · cases hs
      exact .leave p hst rfl rfl rfl
  | bget p b =>
    simp only [Fs.step, Option.ite_none_left_eq_some, Bool.not_eq_true] at hs
    obtain ⟨i, t, hlog, rfl⟩ := call_of_wp (wp_onIo_frame (Q := fun _ t => t.log = s.log) fun _ _ => rfl) hs.2
    exact .buffer _ hs.1 hs.1 hlog rfl rfl rfl
  | breadLock p i | releasesleep p i | bput p i =>
    simp only [Fs.step, Option.ite_none_left_eq_some, Option.ite_none_right_eq_some, Bool.not_eq_true] at hs
    obtain ⟨-, t, hlog, rfl⟩ := call_of_wp (wp_onIo_frame (Q := fun _ t => t.log = s.log) fun _ _ => rfl) hs.2.2
    exact .buffer _ hs.1 hs.1 hlog rfl rfl rfl
  | logWrite p i d =>
    simp only [Fs.step, Option.ite_none_left_eq_some, Option.ite_none_right_eq_some, Bool.not_eq_true] at hs
    obtain ⟨-, t, hlog, rfl⟩ := call_of_wp (E := fun _ => True)
      (Q := fun _ t => t.log = { s.log with lh := absorb (s.io.bc.buf i).blockno s.log.lh })
      (Store.logWrite_wp d (fun _ => trivial) (fun _ => trivial) fun _ _ => rfl) hs.2.2
    exact .write p i d hs.1 hlog rfl rfl

/-- The end of a commit wakes everybody. -/
theorem LogStep.commit_wakes (h : LogStep s s' a) (hst : ¬s.phase.starting = true) (hc : s.log.committing = true)
    (hc' : s'.log.committing = false) (q : Nat) : s'.asleep q = false := by
  have hsame : s'.log.committing ≠ s.log.committing := by
    rw [hc, hc']
    exact Bool.false_ne_true
  cases h with
  | crash _ _ hsleep | leave p _ _ _ hsleep | done _ _ _ hsleep => rw [hsleep]
  | recover hst' _ _ => exact absurd hst' hst
  | buffer _ _ _ hlog | enter p _ _ hlog | sleep p _ _ hlog | write p i d _ hlog | drop _ _ hlog =>
    exact absurd (by rw [hlog]) hsame
  | last p _ hlog => exact absurd (by rw [hlog, hc]) hsame

/-- The end of an operation wakes everybody, or begins a commit. -/
theorem LogStep.endOp_wakes (h : LogStep s s' (.endOp p)) : s'.log.committing = true ∨ ∀ q, s'.asleep q = false := by
  cases h with
  | buffer _ _ _ _ _ _ hplain => cases hplain
  | leave _ _ _ _ hsleep => exact .inr fun q => by rw [hsleep]
  | last _ _ hlog => exact .inl (by rw [hlog])

/-! ## Those who sleep -/

/-- Nobody sleeps before `initlog` has come back, and nobody while there is room. -/
structure Sleepers (s : Fs) : Prop where
  starting : s.phase.starting = true → s.asleep = fun _ => false
  full : ∀ p, s.asleep p = true → s.log.full = true

theorem full_of_committing {l : Log} (h : l.committing = true) : l.full = true := by
  rw [Log.full, h, Bool.true_or]

/-- Noting a block does not make room. -/
theorem full_absorb {l : Log} (b : Nat) (h : l.full = true) : ({ l with lh := absorb b l.lh } : Log).full = true := by
  have hlen : l.lh.length ≤ (absorb b l.lh).length := by
    rw [absorb_eq]
    split
    · exact Nat.le_refl _
    · rw [List.length_append]
      omega
  simp only [Log.full, Bool.or_eq_true, decide_eq_true_eq] at h ⊢
  exact h.imp_right fun hlt => by omega

theorem Sleepers.of_awake (h : s'.asleep = fun _ => false) : Sleepers s' :=
  ⟨fun _ => h, fun p hp => by rw [h] at hp; cases hp⟩

theorem Sleepers.step (hinv : Inv A s) (h : Sleepers s) (hs : LogStep s s' a) : Sleepers s' := by
  cases hs with
  | crash _ _ hsleep | leave p _ _ _ hsleep | done _ _ _ hsleep => exact .of_awake hsleep
  | recover hst _ hsleep => exact .of_awake (hsleep.trans (h.starting hst))
  | buffer _ _ hst' hlog _ hsleep =>
    refine ⟨fun hst => absurd (hst'.symm.trans hst) Bool.false_ne_true, fun q hq => ?_⟩
    rw [hlog]
    exact h.full q (hsleep ▸ hq)
  | enter p hst hfull _ _ hsleep =>
    refine ⟨fun hst' => absurd (hst.symm.trans hst') Bool.false_ne_true, fun q hq => ?_⟩
    exact absurd (hfull.symm.trans (h.full q (hsleep ▸ hq))) Bool.false_ne_true
  | sleep p hst hfull hlog _ _ =>
    refine ⟨fun hst' => absurd (hst.symm.trans hst') Bool.false_ne_true, fun _ _ => ?_⟩
    rw [hlog]
    exact hfull
  | write p i d hst hlog _ hsleep =>
    refine ⟨fun hst' => absurd (hst.symm.trans hst') Bool.false_ne_true, fun q hq => ?_⟩
    rw [hlog]
    exact full_absorb _ (h.full q (hsleep ▸ hq))
  | last p hst hlog _ _ =>
    refine ⟨fun hst' => absurd (hst.symm.trans hst') Bool.false_ne_true, fun _ _ => full_of_committing ?_⟩
    rw [hlog]
  | drop hst hp hlog _ _ =>
    refine ⟨fun hst' => absurd (hst.symm.trans hst') Bool.false_ne_true, fun _ _ => full_of_committing ?_⟩
    obtain ⟨n, hp⟩ := hp
    have hph := hinv.phase
    simp only [PhaseOk, hp] at hph
    rw [hlog]
    exact hph.1

theorem sleepers_of_reach (h : (Fs.sys A).Reach (Kept A) s) : Sleepers s := by
  refine Sys.Reach.invariant_of (fun _ => inv_of_reach) ?_ (fun s a s' hinv hi _ hs => hi.step hinv (.of_step hs)) h
  rintro s ⟨disk, -, rfl⟩
  exact .of_awake rfl

/-! ## Reservations -/

/-- No operation is running before `initlog` has come back. -/
theorem ops_of_starting (h : Inv A s) (hst : s.phase.starting = true) : s.inOp = [] := by
  have hph := h.phase
  have hout : s.log.outstanding = 0 := by
    cases hp : s.phase with
    | readHead | recover n | erase => simp only [PhaseOk, hp] at hph; exact hph.2.1
    | up | writeLog n | writeHead | install n | clear | committed => rw [hp] at hst; cases hst
  exact List.length_eq_zero_iff.mp (h.ops.symm.trans hout)

/-- One block less to log. -/
theorem sum_spend {l : List Nat} {u : Nat → Nat} {m : Nat} (hnd : l.Nodup) (hp : p ∈ l) (hu : u p < m) :
    (l.map fun q => m - update u p (u p + 1) q).sum + 1 = (l.map fun q => m - u q).sum := by
  induction l with
  | nil => cases hp
  | cons q l ih =>
    rw [List.nodup_cons] at hnd
    rw [List.map_cons, List.sum_cons, List.map_cons, List.sum_cons]
    rcases List.mem_cons.mp hp with rfl | hmem
    · have hrest : (l.map fun q => m - update u p (u p + 1) q) = l.map fun q => m - u q := by
        refine List.map_congr_left fun q hq => ?_
        have hne : q ≠ p := fun hqp => hnd.1 (hqp ▸ hq)
        rw [update_of_ne hne]
      rw [hrest, update_self]
      omega
    · have hne : q ≠ p := fun hqp => hnd.1 (hqp ▸ hmem)
      rw [update_of_ne hne, ← ih hnd.2 hmem]
      omega

theorem reserved_le (x : Fs × (Nat → List Nat)) : reserved x ≤ x.1.inOp.length * MAXOPBLOCKS := by
  unfold reserved
  have hle : ∀ n ∈ x.1.inOp.map fun p => MAXOPBLOCKS - (x.2 p).length, n ≤ MAXOPBLOCKS := by
    intro n hn
    obtain ⟨p, -, rfl⟩ := List.mem_map.mp hn
    exact Nat.sub_le ..
  have hsum := List.sum_le_card_nsmul _ _ hle
  rw [List.length_map] at hsum
  exact hsum

/-- What the operations have logged is in the header, and what they may still log fits in. -/
structure Room (x : Fs × (Nat → List Nat)) : Prop where
  nodup : x.1.inOp.Nodup
  logged : ∀ p ∈ x.1.inOp, ∀ b ∈ x.2 p, b ∈ x.1.log.lh
  room : x.1.log.lh.length + reserved x ≤ LOGSIZE

theorem reach_of_metered (h : (metered A).Reach (Modest A) x) : (Fs.sys A).Reach (Kept A) x.1 :=
  Sys.Reach.of_noting (fun _ _ hok => hok.1) h

theorem reserved_congr {l : List Nat} {v : Nat → List Nat} (h : ∀ p ∈ l, u p = v p) :
    (l.map fun p => MAXOPBLOCKS - (u p).length).sum = (l.map fun p => MAXOPBLOCKS - (v p).length).sum :=
  congrArg List.sum (List.map_congr_left fun p hp => by rw [h p hp])

/-- The others have logged what they had. -/
theorem meter_begin {l : List Nat} (hp : p ∉ l) : ∀ q ∈ l, meter s u (.beginOp p) q = u q := by
  intro q hq
  have hne : q ≠ p := fun hqp => hp (hqp ▸ hq)
  exact update_of_ne hne ..

/-- No operation is running, so there is nothing to make room for. -/
theorem Room.of_idle (hinv : Inv A s) (h : s.inOp = []) : Room (s, u) := by
  refine ⟨by rw [h]; exact List.nodup_nil, fun p hp => ?_, by rw [reserved, h]; exact hinv.lh.length⟩
  rw [h] at hp
  cases hp

/-- Another block takes one of the places that are reserved for its operation; one that it has logged before takes none. -/
theorem Room.write {b : Nat} (h : Room (s, u)) (hp : p ∈ s.inOp) (hb : b ∈ u p ∨ (u p).length < MAXOPBLOCKS)
    (hlog : s'.log = { s.log with lh := absorb b s.log.lh }) (hops : s'.inOp = s.inOp) :
    Room (s', update u p ((u p).insert b)) := by
  obtain ⟨hnd, hlogged, hroom⟩ := h
  have hlh : s'.log.lh = if b ∈ s.log.lh then s.log.lh else s.log.lh ++ [b] := by rw [hlog, ← absorb_eq]
  have hsub : ∀ c, c = b ∨ c ∈ s.log.lh → c ∈ s'.log.lh := by
    intro c hc
    rw [hlh]
    split
    · rename_i hmem
      exact hc.elim (fun hcb => hcb ▸ hmem) id
    · rw [List.mem_append, List.mem_singleton]
      exact hc.symm
  refine ⟨by rw [hops]; exact hnd, fun q hq c hc => ?_, ?_⟩
  · rw [hops] at hq
    refine hsub c ?_
    dsimp only at hc
    by_cases hqp : q = p
    · rw [hqp, update_self, List.mem_insert_iff] at hc
      exact hc.imp_right (hlogged p hp c)
    · rw [update_of_ne hqp] at hc
      exact .inr (hlogged q hq c hc)
  · by_cases hmem : b ∈ u p
    · rw [List.insert_of_mem hmem, Function.update_eq_self, hlh, if_pos (hlogged p hp b hmem), reserved, hops]
      exact hroom
    · have hspend := sum_spend (u := fun q => (u q).length) hnd hp (hb.resolve_left hmem)
      have hlen : s'.log.lh.length ≤ s.log.lh.length + 1 := by
        rw [hlh]
        split
        · exact Nat.le_succ _
        · rw [List.length_append, List.length_singleton]
      have hupd : ∀ q, (update u p ((u p).insert b) q).length = update (fun q => (u q).length) p ((u p).length + 1) q := by
        intro q
        by_cases hqp : q = p
        · rw [hqp, update_self, update_self, List.length_insert_of_not_mem hmem]
        · rw [update_of_ne hqp, update_of_ne hqp]
      rw [reserved, hops]
      simp only [hupd]
      dsimp only [reserved] at hroom hspend
      omega

theorem Room.step {y : Fs × (Nat → List Nat)} (hinv : Inv A x.1) (hinv' : Inv A y.1) (h : Room x) (hok : Modest A x a)
    (hs : (metered A).step x a = some y) : Room y := by
  obtain ⟨s', hstep, rfl⟩ := Option.map_eq_some_iff.mp hs
  obtain ⟨s, u⟩ := x
  obtain ⟨hnd, hlogged, hroom⟩ := h
  have hkeep : s'.log.lh = s.log.lh → s'.inOp.Sublist s.inOp → (∀ p ∈ s.inOp, meter s u a p = u p) → Room (s', meter s u a) := by
    intro hlh hops hu
    refine ⟨hnd.sublist hops, fun p hp b hb => ?_, Nat.le_trans (Nat.add_le_add (by rw [hlh]) ?_) hroom⟩
    · have hp := hops.subset hp
      rw [hlh]
      dsimp only at hb
      rw [hu p hp] at hb
      exact hlogged p hp b hb
    · rw [reserved, reserved_congr fun p hp => hu p (hops.subset hp)]
      exact (hops.map _).sum_le_sum fun _ _ => Nat.zero_le _
  cases LogStep.of_step hstep with
  | crash _ hops _ => exact .of_idle hinv' hops
  | recover hst hops _ => exact .of_idle hinv' (hops.trans (ops_of_starting hinv hst))
  | buffer _ _ _ hlog hops _ hplain =>
    refine hkeep (by rw [hlog]) (by rw [hops]) fun p _ => ?_
    unfold meter
    split
    · cases hplain
    · cases hplain
    · rfl
  | enter p hst hfull hlog hops hsleep =>
    have hle := reserved_le (s, u)
    have hout : s.log.outstanding = s.inOp.length := hinv.ops
    have hlen : s'.log.lh = s.log.lh := by rw [hlog]
    refine ⟨by rw [hops]; exact List.nodup_cons.mpr ⟨hok.2, hnd⟩, fun q hq b hb => ?_, ?_⟩
    · rw [hops] at hq
      rcases List.mem_cons.mp hq with rfl | hq
      · simp only [meter, update_self] at hb
        cases hb
      · rw [hlen]
        dsimp only at hb
        rw [meter_begin hok.2 q hq] at hb
        exact hlogged q hq b hb
    simp only [Log.full, Bool.or_eq_false_iff, decide_eq_false_iff_not, hout, Nat.succ_mul] at hfull
    rw [reserved, hops, List.map_cons, List.sum_cons, reserved_congr (meter_begin hok.2), hlen]
    dsimp only [reserved] at hle ⊢
    omega
  | sleep p hst hfull hlog hops _ => exact hkeep (by rw [hlog]) (by rw [hops]) (meter_begin hok.2)
  | write p i d hst hlog hops hsleep => exact Room.write ⟨hnd, hlogged, hroom⟩ hok.1 hok.2 hlog hops
  | leave p _ hlog hops hsleep | last p hst hlog hops _ =>
    exact hkeep (by rw [hlog]) (by rw [hops]; exact List.erase_sublist) fun _ _ => rfl
  | drop hst hp hlog hops _ =>
    obtain ⟨n, hp⟩ : ∃ n, s.phase = .install n := hp
    have hph : PhaseOk A s := hinv.phase
    simp only [PhaseOk, hp] at hph
    exact .of_idle hinv' (hops.trans (List.length_eq_zero_iff.mp (hinv.ops.symm.trans hph.2.1)))
  | done _ hlog hops hsleep => exact hkeep (by rw [hlog]) (by rw [hops]) fun _ _ => rfl

theorem room_of_reach (h : (metered A).Reach (Modest A) x) : Room x := by
  induction h with
  | init hi =>
    have hops := hi.1
    obtain ⟨disk, -, hx⟩ := hops
    exact Room.of_idle (inv_of_reach (.init hi.1)) (by rw [hx]; rfl)
  | step a hr hok hs ih => exact ih.step (inv_of_reach (reach_of_metered hr)) (inv_of_reach (reach_of_metered (.step a hr hok hs))) hok hs

end LogSpaceAux

open LogAux LogSpaceAux

/-- A process sleeps in `begin_op` only while there is no room for its operation, and then either a commit is running, or an operation
that has not come to its `end_op`. The end of a commit wakes all who sleep, and so does every `end_op`, unless a commit follows on it. No
wakeup is lost, whatever the others do. -/
theorem begin_op_sleeper_waits_for_somebody {A : LogArea} {s : Fs} {p : Nat} (h : (Fs.sys A).Reach (Fs.Kept A) s)
    (hp : s.asleep p = true) : s.log.full = true ∧ (s.log.committing = true ∨ s.inOp ≠ []) ∧
      (∀ a s', Fs.step A s a = some s' → s.log.committing = true → s'.log.committing = false → ∀ q, s'.asleep q = false) ∧
      ∀ q s', Fs.step A s (.endOp q) = some s' → s'.log.committing = true ∨ ∀ q, s'.asleep q = false := by
  have hinv := inv_of_reach h
  have hsleep := sleepers_of_reach h
  have hfull := hsleep.full p hp
  have hup : ¬s.phase.starting = true := by
    intro hst
    rw [hsleep.starting hst] at hp
    cases hp
  refine ⟨hfull, ?_, fun a s' hs => (LogStep.of_step hs).commit_wakes hup, fun q s' hs => (LogStep.of_step hs).endOp_wakes⟩
  by_contra hno
  rw [not_or, Bool.not_eq_true, not_not] at hno
  obtain ⟨hcom, hops⟩ := hno
  have hout : s.log.outstanding = 0 := by rw [hinv.ops, hops]; rfl
  -- Without operations there is nothing in the log, so there is room.
  have hlh : s.log.lh = [] := by
    have hph := hinv.phase
    cases hph' : s.phase with
    | up => simp only [PhaseOk, hph'] at hph; exact hph.2.2 hout
    | writeLog n | writeHead | install n | clear | committed => simp only [PhaseOk, hph', hcom] at hph; cases hph.1
    | readHead | recover n | erase => exact absurd (by rw [hph']; rfl) hup
  rw [Log.full, hcom, hout, hlh] at hfull
  cases hfull

/-- Three operations take all the room. -/
theorem begin_op_sleeper_waits_for_somebody_sample : ∃ s, (Fs.sys mkfsLog).Reach (Fs.Kept mkfsLog) s ∧ s.asleep 4 = true ∧
    s.log.full = true ∧ (s.log.committing = true ∨ s.inOp ≠ []) ∧
    (∀ a s', Fs.step mkfsLog s a = some s' → s.log.committing = true → s'.log.committing = false → ∀ q, s'.asleep q = false) ∧
    ∀ q s', Fs.step mkfsLog s (.endOp q) = some s' → s'.log.committing = true ∨ ∀ q, s'.asleep q = false := by
  have hrun : (((Fs.sys mkfsLog).runOk (Fs.Kept mkfsLog) (Fs.boot fun _ _ => Block.zero)
      (List.replicate 3 .recover ++ [.beginOp 1, .beginOp 2, .beginOp 3, .beginOp 4])).map fun s => s.asleep 4) = some true := by
    decide +kernel
  obtain ⟨s, hs, hsleep⟩ := Option.map_eq_some_iff.mp hrun
  have hreach := Sys.Reach.runOk (.init Fs.init_zero) hs
  exact ⟨s, hreach, hsleep, begin_op_sleeper_waits_for_somebody hreach hsleep⟩

/-- An operation that has not yet logged as many blocks as it has reserved is never told that the transaction is too big, or that it is
outside of one, as long as the area on the disk holds one block more than the header has numbers in use. -/
theorem log_write_has_room {A : LogArea} {x : Fs × (Nat → List Nat)} {p : Nat} {i : Fin NBUF}
    (h : (Fs.metered A).Reach (Fs.Modest A) x) (hp : p ∈ x.1.inOp) (hu : (x.2 p).length < MAXOPBLOCKS)
    (hi : holdingsleep p i x.1.io = true) :
    x.1.log.lh.length < LOGSIZE ∧
      (x.1.log.lh.length + 1 < A.size → ∀ data, (Fs.step A x.1 (.logWrite p i data)).isSome = true) := by
  have hinv := inv_of_reach (reach_of_metered h)
  have hroom := room_of_reach h
  have hspend := sum_spend (u := fun q => (x.2 q).length) hroom.nodup hp hu
  have hlen : x.1.log.lh.length < LOGSIZE := by
    have hle := hroom.room
    rw [Fs.reserved] at hle
    omega
  refine ⟨hlen, fun hsize data => ?_⟩
  have hact := hinv.active_of_mem hp
  have hst : ¬x.1.phase.starting = true := by rw [hinv.up_of_active hact]; exact Bool.false_ne_true
  obtain ⟨-, t, -, hc⟩ := call_total (s := x.1) (fun _ s => s) (Store.logWrite_wp (A := A) (i := i) (Q := fun _ _ => True) data
    (fun hbig => by omega) (fun hout => by omega) fun _ _ => trivial)
  simp only [Fs.step, if_neg hst, if_pos hi]
  rw [hc]
  rfl

/-- The second `log_write` of the block that has been logged. -/
theorem log_write_has_room_sample : ∃ x, (Fs.metered mkfsLog).Reach (Fs.Modest mkfsLog) x ∧ x.2 1 = [60] ∧
    (x.1.log.lh.length + 1 < mkfsLog.size → ∀ data, (Fs.step mkfsLog x.1 (.logWrite 1 1 data)).isSome = true) := by
  have hrun : (((Fs.metered mkfsLog).runOk (Fs.Modest mkfsLog) (Fs.boot fun _ _ => Block.zero, fun _ => []) (Fs.sampleRun.take 7)).map
      fun x => (decide (1 ∈ x.1.inOp), x.2 1, holdingsleep 1 1 x.1.io)) = some (true, [60], true) := by
    decide +kernel
  obtain ⟨x, hx, hval⟩ := Option.map_eq_some_iff.mp hrun
  obtain ⟨h1, h2⟩ := Prod.mk.inj hval
  obtain ⟨h2, h3⟩ := Prod.mk.inj h2
  have hinit : (Fs.metered mkfsLog).init (Fs.boot fun _ _ => Block.zero, fun _ => []) := ⟨Fs.init_zero, trivial⟩
  have hreach := Sys.Reach.runOk (.init hinit) hx
  exact ⟨x, hreach, h2, (log_write_has_room hreach (of_decide_eq_true h1) (by rw [h2]; decide) h3).2⟩

end OsLab
