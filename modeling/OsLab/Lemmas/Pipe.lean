import OsLab.Pipe
import OsLab.Lib.Fifo
import Mathlib.Algebra.BigOperators.Group.Finset.Piecewise
import Mathlib.Algebra.Order.BigOperators.Group.Finset
import Mathlib.Algebra.Order.Ring.Nat

/-!
# Who holds a pipe, and what it holds

The reference count of a file is the number of descriptors for it. An end of the pipe is held by its file or by the process that is about
to close it (`ends`), by one of them, and it is open as long as it is held. The pipe is a queue of what has been written and not yet read
(`Pipe.Holds`), and who sleeps on it has to (`Pipe.Waits`). `PipeSys.Inv` says all this. Most steps change one process and leave the pipe
alone (`Inv.move`); a turn in `pipewrite` or `piperead` changes the pipe and no descriptor (`Inv.turned`).
-/

namespace OsLab

open Function (update update_self update_of_ne)

/-! ## Pipes -/

namespace Pipe

variable {P : Pipe} {l : List UInt8}

/-- The pipe holds these bytes, oldest first. -/
def Holds (P : Pipe) (l : List UInt8) : Prop := Fifo.Holds PIPESIZE (2 ^ 32) P.data P.nread P.nwrite l

theorem dvd_words : PIPESIZE ∣ 2 ^ 32 := ⟨2 ^ 23, by decide⟩

theorem lt_words : PIPESIZE < 2 ^ 32 := by decide

theorem Holds.empty_iff (h : P.Holds l) : P.empty = true ↔ l = [] := by
  unfold empty
  rw [beq_iff_eq]
  exact Fifo.Holds.empty_iff h lt_words

theorem Holds.full_iff (h : P.Holds l) : P.full = true ↔ l.length = PIPESIZE := by
  unfold full
  rw [beq_iff_eq]
  exact Fifo.Holds.full_iff h lt_words

/-- A byte written goes behind the others. -/
theorem Holds.put (h : P.Holds l) (hroom : P.full = false) (c : UInt8) : (P.put c).Holds (l ++ [c]) := by
  refine Fifo.Holds.put h dvd_words (Nat.lt_of_le_of_ne h.length fun hlen => ?_) c
  rw [h.full_iff.mpr hlen] at hroom
  cases hroom

/-- The bytes that `pipewrite` has put in are in the pipe. -/
theorem Holds.pipewrite {k : Bool} {bytes : List UInt8} (h : P.Holds l) :
    (P.pipewrite k bytes).1.Holds (l ++ (P.pipewrite k bytes).2.1) := by
  induction bytes generalizing P l with
  | nil => simpa only [Pipe.pipewrite, List.append_nil] using h
  | cons c bytes ih =>
    unfold Pipe.pipewrite
    by_cases hfull : P.full = true
    · rw [if_pos hfull]
      split
      · simpa using h
      · simpa using h
    · rw [if_neg hfull]
      simpa using ih (h.put (by simpa using hfull) c)

/-- The loop of `piperead` takes the first bytes. -/
theorem Holds.copyOut {n : Nat} (h : P.Holds l) : (P.copyOut n).1.Holds (l.drop n) ∧ (P.copyOut n).2 = l.take n := by
  induction n generalizing P l with
  | zero => exact ⟨h, rfl⟩
  | succ n ih =>
    unfold Pipe.copyOut
    cases l with
    | nil =>
      rw [if_pos (h.empty_iff.mpr rfl)]
      exact ⟨h, rfl⟩
    | cons c l =>
      have hne : ¬P.empty = true := fun he => List.cons_ne_nil c l (h.empty_iff.mp he)
      obtain ⟨hhead, hrest⟩ := Fifo.Holds.take h dvd_words
      obtain ⟨hholds, htake⟩ := ih (P := P.advance) hrest
      rw [if_neg hne]
      dsimp only
      rw [htake, show P.head = c from hhead]
      exact ⟨hholds, rfl⟩

/-- The end of the pipe is open. -/
def opens (P : Pipe) (writable : Bool) : Bool := if writable then P.writeopen else P.readopen

/-- The reason to sleep at an end: there is no room, or nothing to read, and the other end is open. -/
def Waits (P : Pipe) (writable : Bool) : Prop := (if writable then P.full else P.empty) = true ∧ P.opens (!writable) = true

/-- `pipewrite` changes no flag. When it has not put in all bytes there is no room, and it sleeps if somebody may read, unless the
process has been killed. -/
theorem pipewrite_end (k : Bool) (P : Pipe) (bytes : List UInt8) :
    (P.pipewrite k bytes).1.opens = P.opens ∧
      match (P.pipewrite k bytes).2.2 with
      | .done => True
      | .fail => P.readopen = false ∨ k = true
      | .sleep _ => (P.pipewrite k bytes).1.Waits true := by
  induction bytes generalizing P with
  | nil => exact ⟨rfl, trivial⟩
  | cons c bytes ih =>
    unfold Pipe.pipewrite
    by_cases hfull : P.full = true
    · rw [if_pos hfull]
      by_cases hstop : P.readopen = false ∨ k = true
      · rw [if_pos hstop]
        exact ⟨rfl, hstop⟩
      · rw [if_neg hstop]
        rw [not_or, Bool.not_eq_false] at hstop
        exact ⟨rfl, hfull, hstop.1⟩
    · rw [if_neg hfull]
      exact ih (P.put c)

/-- A pipe that is full stays as it is. -/
theorem pipewrite_of_full {k : Bool} {bytes : List UInt8} (h : P.full = true) : (P.pipewrite k bytes).1 = P := by
  cases bytes with
  | nil => rfl
  | cons c bytes =>
    unfold Pipe.pipewrite
    rw [if_pos h]
    split <;> rfl

theorem copyOut_opens (P : Pipe) (n : Nat) : (P.copyOut n).1.opens = P.opens := by
  induction n generalizing P with
  | zero => rfl
  | succ n ih =>
    unfold Pipe.copyOut
    split
    · rfl
    · exact ih P.advance

/-- A read that does not come back with bytes leaves the pipe as it is. -/
theorem piperead_end (k : Bool) (P : Pipe) (n : Nat) :
    (P.piperead k n).1.opens = P.opens ∧
      match (P.piperead k n).2 with
      | .done bytes => ¬P.Waits false ∧ P.copyOut n = ((P.piperead k n).1, bytes)
      | .fail => (P.piperead k n).1 = P
      | .sleep => (P.piperead k n).1 = P ∧ P.Waits false := by
  unfold piperead
  by_cases hwait : P.empty = true ∧ P.writeopen = true
  · rw [if_pos hwait]
    cases k with
    | true => exact ⟨rfl, rfl⟩
    | false => exact ⟨rfl, rfl, hwait⟩
  · rw [if_neg hwait]
    exact ⟨copyOut_opens P n, hwait, rfl⟩

theorem close_opens (P : Pipe) (w v : Bool) : (P.close w).opens v = if v = w then false else P.opens v := by
  cases w <;> cases v <;> rfl

end Pipe

/-! ## The invariant -/

/-- The end that a process is about to close. -/
def PipeTask.ends : PipeTask → Bool → Nat
  | .ending e _, w => if e = w then 1 else 0
  | _, _ => 0

/-- The end that a process in `pipewrite` or `piperead` uses. -/
def PipeTask.side : PipeTask → Option Bool
  | .writing _ => some true
  | .reading _ => some false
  | _ => none

/-- A process holds the end that it uses. -/
structure PipeProc.Ok (x : PipeProc) : Prop where
  idle : x.task = .unused → ∀ w, x.fds w = 0
  busy : ∀ w, x.task.side = some w → 0 < x.fds w
  asleep : ∀ w, x.asleep = some w → x.task.side = some w

/-- Who is not in the pipe does not sleep there. -/
theorem PipeProc.Ok.awake {x : PipeProc} (h : x.Ok) (hs : x.task.side = none) : x.asleep = none := by
  cases hc : x.asleep with
  | none => rfl
  | some w => cases hs.symm.trans (h.asleep w hc)

/-- A process that neither reads nor writes. -/
theorem PipeProc.Ok.of_quiet {x : PipeProc} (hidle : x.task = .unused → ∀ w, x.fds w = 0) (hside : x.task.side = none)
    (hawake : x.asleep = none) : x.Ok := by
  refine ⟨hidle, fun w hw => ?_, fun w hw => ?_⟩
  · cases hside.symm.trans hw
  · cases hawake.symm.trans hw

/-- A process that starts to read or to write. -/
theorem PipeProc.Ok.of_busy {x : PipeProc} {w : Bool} (hfds : 0 < x.fds w) (hside : x.task.side = some w) (hawake : x.asleep = none) :
    x.Ok := by
  refine ⟨fun hu => ?_, fun v hv => ?_, fun v hv => ?_⟩
  · rw [hu] at hside
    cases hside
  · cases hside.symm.trans hv
    exact hfds
  · cases hawake.symm.trans hv

/-- One term of a sum has changed. -/
theorem sum_of_eq_off {ι : Type*} [Fintype ι] [DecidableEq ι] {g k : ι → Nat} (i : ι) (h : ∀ j, j ≠ i → k j = g j) :
    ∑ j, k j + g i = ∑ j, g j + k i := by
  have h1 := Finset.add_sum_erase Finset.univ k (Finset.mem_univ i)
  have h2 := Finset.add_sum_erase Finset.univ g (Finset.mem_univ i)
  have hrest : ∑ j ∈ Finset.univ.erase i, k j = ∑ j ∈ Finset.univ.erase i, g j :=
    Finset.sum_congr rfl fun j hj => h j (Finset.ne_of_mem_erase hj)
  omega

namespace PipeSys

/-- How many hold this end. -/
def ends (s : PipeSys) (w : Bool) : Nat := (if 0 < s.ref w then 1 else 0) + ∑ p, (s.proc p).task.ends w

/-- The invariant, with what has gone through the pipe. With `k`, who sleeps has a reason, too. -/
structure Inv (k : Bool) (s : PipeSys) (h : Stream) : Prop where
  refs : ∀ w, s.ref w = ∑ p, (s.proc p).fds w
  ends : ∀ w, s.ends w = if s.pipe.opens w = true then 1 else 0
  freed : s.freed = true ↔ ∀ w, s.pipe.opens w = false
  procs : ∀ p, (s.proc p).Ok
  flows : ∃ l, s.pipe.Holds l ∧ h.sent = h.got ++ l
  waits : k = true → ∀ p w, (s.proc p).asleep = some w → s.pipe.Waits w

variable {k : Bool} {s s' : PipeSys} {h h' : Stream} {p q c : Slot} {x : PipeProc} {w : Bool} {t : PipeTask}

theorem Inv.ref_pos (hi : Inv k s h) (hp : 0 < (s.proc p).fds w) : 0 < s.ref w := by
  rw [hi.refs w]
  exact Nat.lt_of_lt_of_le hp (Finset.single_le_sum_of_canonicallyOrdered (f := fun p => (s.proc p).fds w) (Finset.mem_univ p))

/-- A process that has a descriptor for the file finds a reference. -/
theorem Inv.not_ref_lt (hi : Inv k s h) (hp : 0 < (s.proc p).fds w) : ¬s.ref w < 1 :=
  Nat.not_lt.mpr (hi.ref_pos hp)

/-- An end is held while somebody has a descriptor for it. -/
theorem held_iff : s.Held w ↔ 0 < s.ends w := by
  unfold Held ends
  constructor
  · rintro (href | ⟨p, b, hp⟩)
    · rw [if_pos href]
      omega
    · have hle := Finset.single_le_sum_of_canonicallyOrdered (f := fun p => (s.proc p).task.ends w) (Finset.mem_univ p)
      have hone : (s.proc p).task.ends w = 1 := by rw [hp]; exact if_pos rfl
      omega
  · intro hpos
    by_contra hno
    rw [not_or, not_exists] at hno
    rw [if_neg hno.1, Finset.sum_eq_zero] at hpos
    · exact absurd hpos (Nat.lt_irrefl 0)
    · intro p _
      have hp := hno.2 p
      cases ht : (s.proc p).task with
      | ending e b =>
        have hne : e ≠ w := by
          rintro rfl
          exact hp ⟨b, ht⟩
        exact if_neg hne
      | unused | user | exiting | writing rest | reading n => rfl

/-- An end is open as long as it is held. -/
theorem Inv.opens_iff (hi : Inv k s h) : s.pipe.opens w = true ↔ s.Held w := by
  rw [held_iff, hi.ends w]
  split
  · rename_i hw
    exact iff_of_true hw Nat.one_pos
  · rename_i hw
    exact iff_of_false hw (Nat.lt_irrefl 0)

/-- A process holds the end that it uses. -/
theorem Inv.held_of_side (hi : Inv k s h) (hp : (s.proc p).task.side = some w) : s.Held w :=
  .inl (hi.ref_pos ((hi.procs p).busy w hp))

/-! ## Steps that leave the pipe alone -/

/-- One process and the reference counts have changed. -/
theorem Inv.move {r : Bool → Nat} (hi : Inv k s h) (hrefs : ∀ w, r w + (s.proc p).fds w = s.ref w + x.fds w)
    (hends : ∀ w, (if 0 < r w then 1 else 0) + x.task.ends w = (if 0 < s.ref w then 1 else 0) + (s.proc p).task.ends w) (hx : x.Ok)
    (hasleep : ∀ w, x.asleep = some w → (s.proc p).asleep = some w) :
    Inv k { s with ref := r, proc := update s.proc p x } h := by
  refine ⟨fun w => ?_, fun w => ?_, hi.freed, fun q => ?_, hi.flows, fun hk q w hw => ?_⟩
  · have hsum := sum_of_eq_off (g := fun q => (s.proc q).fds w) (k := fun q => (update s.proc p x q).fds w) p
      fun q hq => by rw [update_of_ne hq]
    rw [update_self] at hsum
    have h1 := hrefs w
    have h2 := hi.refs w
    dsimp only
    omega
  · have hsum := sum_of_eq_off (g := fun q => (s.proc q).task.ends w) (k := fun q => (update s.proc p x q).task.ends w) p
      fun q hq => by rw [update_of_ne hq]
    rw [update_self] at hsum
    have h1 := hends w
    refine Eq.trans ?_ (hi.ends w)
    unfold PipeSys.ends
    dsimp only
    omega
  · dsimp only
    by_cases hq : q = p
    · rw [hq, update_self]
      exact hx
    · rw [update_of_ne hq]
      exact hi.procs q
  · dsimp only at hw
    by_cases hq : q = p
    · rw [hq, update_self] at hw
      exact hi.waits hk p w (hasleep w hw)
    · rw [update_of_ne hq] at hw
      exact hi.waits hk q w hw

/-- One process has changed, with the same descriptors. -/
theorem Inv.shift (hi : Inv k s h) (hfds : x.fds = (s.proc p).fds) (hends : x.task.ends = (s.proc p).task.ends) (hx : x.Ok)
    (hasleep : ∀ w, x.asleep = some w → (s.proc p).asleep = some w) : Inv k (s.setProc p x) h :=
  hi.move (fun w => by rw [hfds]) (fun w => by rw [hends]) hx hasleep

/-- `fork` has a reference for each of the descriptors. -/
theorem filedups_eq {n : Nat} (hpos : 0 < n → 0 < s.ref w) :
    filedups w n s = some { s with ref := update s.ref w (s.ref w + n) } := by
  induction n generalizing s with
  | zero => rw [filedups, Nat.add_zero, Function.update_eq_self]
  | succ n ih =>
    have href : ¬s.ref w < 1 := by
      have := hpos (Nat.succ_pos n)
      omega
    rw [filedups, filedup, if_neg href, Option.bind_some, ih fun _ => ?_]
    · dsimp only
      rw [update_self, Function.update_idem, Nat.add_assoc, Nat.add_comm 1 n]
    · dsimp only
      rw [update_self]
      omega

/-- The state after a `fork`. -/
theorem Inv.fork_eq (hi : Inv k s h) : s.fork p c = some
    { s with ref := fun w => s.ref w + (s.proc p).fds w,
             proc := update s.proc c { s.proc c with fds := (s.proc p).fds, task := .user } } := by
  unfold PipeSys.fork
  rw [filedups_eq fun hn => hi.ref_pos hn, Option.bind_some, filedups_eq fun hn => ?_, Option.map_some]
  · refine congrArg some ?_
    unfold setProc
    congr 1
    funext w
    cases w <;> rfl
  · exact hi.ref_pos hn

/-- A child shares what its parent has open. -/
theorem Inv.fork (hi : Inv k s h) (hc : (s.proc c).task = .unused) (hs : s.fork p c = some s') : Inv k s' h := by
  rw [hi.fork_eq] at hs
  cases hs
  have hzero := (hi.procs c).idle hc
  refine hi.move (fun w => by dsimp only; rw [hzero w]; omega) (fun w => ?_)
    (.of_quiet (fun hx => by cases hx) rfl ((hi.procs c).awake (by rw [hc]; rfl))) fun _ hw => hw
  rw [hc]
  have hpos : 0 < s.ref w + (s.proc p).fds w ↔ 0 < s.ref w := by
    refine ⟨fun hsum => ?_, fun href => Nat.add_pos_left href _⟩
    by_cases hfds : 0 < (s.proc p).fds w
    · exact hi.ref_pos hfds
    · omega
  exact congrArg (· + 0) (if_congr hpos rfl rfl)

theorem Inv.sysDup (hi : Inv k s h) (hp : (s.proc p).task = .user) (hs : s.sysDup p w = some s') : Inv k s' h := by
  obtain ⟨s1, hdup, rfl⟩ := Option.map_eq_some_iff.mp hs
  rw [filedup, Option.ite_none_left_eq_some] at hdup
  obtain ⟨hpos, hdup⟩ := hdup
  cases hdup
  refine hi.move (r := update s.ref w (s.ref w + 1)) (fun v => ?_) (fun v => ?_)
    (.of_quiet (fun hx => by rw [hp] at hx; cases hx) (by rw [hp]; rfl) ((hi.procs p).awake (by rw [hp]; rfl))) fun _ hw => hw
  · dsimp only
    by_cases hv : v = w
    · rw [hv, update_self, update_self]
      omega
    · rw [update_of_ne hv, update_of_ne hv]
  · dsimp only
    by_cases hv : v = w
    · rw [hv, update_self, if_pos (Nat.succ_pos _), if_pos (by omega)]
    · rw [update_of_ne hv]

/-- The last close of an end goes on to `pipeclose`. -/
theorem Inv.fileclose (hi : Inv k s h) (hp : (s.proc p).task = .user ∨ (s.proc p).task = .exiting) (hf : 0 < (s.proc p).fds w)
    (hs : s.fileclose p w = some s') : Inv k s' h := by
  have hside : (s.proc p).task.side = none := by rcases hp with hp | hp <;> rw [hp] <;> rfl
  have hnone : ∀ v, (s.proc p).task.ends v = 0 := by rcases hp with hp | hp <;> rw [hp] <;> exact fun _ => rfl
  have hidle : (s.proc p).task ≠ .unused := by rcases hp with hp | hp <;> rw [hp] <;> decide
  have hrefs : ∀ v, update s.ref w (s.ref w - 1) v + (s.proc p).fds v =
      s.ref v + update (s.proc p).fds w ((s.proc p).fds w - 1) v := by
    intro v
    have hpos := hi.ref_pos hf
    by_cases hv : v = w
    · rw [hv, update_self, update_self]
      omega
    · rw [update_of_ne hv, update_of_ne hv]
  unfold PipeSys.fileclose at hs
  rw [Option.ite_none_left_eq_some] at hs
  obtain ⟨hpos, hs⟩ := hs
  split at hs
  · rename_i hmany
    cases hs
    refine hi.move (r := update s.ref w (s.ref w - 1)) hrefs (fun v => ?_)
      (.of_quiet (fun hx => absurd hx hidle) hside ((hi.procs p).awake hside)) fun _ hw => hw
    by_cases hv : v = w
    · rw [hv, update_self, if_pos (by omega), if_pos (by omega)]
    · rw [update_of_ne hv]
  · rename_i hlast
    cases hs
    refine hi.move (r := update s.ref w (s.ref w - 1)) hrefs (fun v => ?_)
      (.of_quiet (fun hx => by cases hx) rfl ((hi.procs p).awake hside)) fun _ hw => hw
    rw [hnone v]
    by_cases hv : v = w
    · rw [hv, update_self, if_neg (by omega), if_pos (by omega)]
      simp only [PipeTask.ends, if_pos]
    · rw [update_of_ne hv]
      exact congrArg _ (if_neg fun hwv => hv hwv.symm)

/-! ## Steps that change the pipe -/

/-- The processes are where they were, and some of them have been woken up. -/
def Calmer (s : PipeSys) (u : Slot → PipeProc) : Prop :=
  ∀ q, (u q).fds = (s.proc q).fds ∧ (u q).task = (s.proc q).task ∧ ∀ w, (u q).asleep = some w → (s.proc q).asleep = some w

/-- Who still sleeps after a `wakeup` sleeps on the other channel. -/
theorem of_wakeup {v : Bool} (hw : ((s.wakeup v).proc q).asleep = some w) : (s.proc q).asleep = some w ∧ w = !v := by
  unfold wakeup at hw
  dsimp only at hw
  split at hw
  · cases hw
  · rename_i hne
    refine ⟨hw, ?_⟩
    rw [hw, Option.some.injEq] at hne
    cases w <;> cases v <;> first | rfl | exact absurd rfl hne

theorem calmer_self : Calmer s s.proc := fun _ => ⟨rfl, rfl, fun _ hw => hw⟩

/-- A wakeup puts nobody to sleep. -/
theorem calmer_wakeup {v : Bool} : Calmer s (s.wakeup v).proc := by
  intro q
  refine ⟨?_, ?_, fun w hw => (of_wakeup hw).1⟩
  · unfold wakeup
    dsimp only
    split <;> rfl
  · unfold wakeup
    dsimp only
    split <;> rfl

variable {u : Slot → PipeProc} {P : Pipe} {b : Bool}

theorem Calmer.awake (hu : Calmer s u) (hp : (s.proc p).asleep = none) : (u p).asleep = none := by
  cases hc : (u p).asleep with
  | none => rfl
  | some w => cases hp.symm.trans ((hu p).2.2 w hc)

theorem Calmer.ok (hu : Calmer s u) (hi : Inv k s h) (q : Slot) : (u q).Ok := by
  obtain ⟨hfds, htask, hasleep⟩ := hu q
  refine ⟨fun hq => ?_, fun w hw => ?_, fun w hw => ?_⟩
  · rw [hfds]
    exact (hi.procs q).idle (htask ▸ hq)
  · rw [hfds]
    exact (hi.procs q).busy w (htask ▸ hw)
  · rw [htask]
    exact (hi.procs q).asleep w (hasleep w hw)

/-- The pipe and one process have changed, with the same descriptors, and some processes have been woken up. -/
theorem Inv.rework (hi : Inv k s h) (hu : Calmer s u) (hfds : x.fds = (s.proc p).fds) (hx : x.Ok)
    (hends : ∀ w, x.task.ends w + (if s.pipe.opens w = true then 1 else 0) =
      (s.proc p).task.ends w + if P.opens w = true then 1 else 0)
    (hfreed : b = true ↔ ∀ w, P.opens w = false) (hflows : ∃ l, P.Holds l ∧ h'.sent = h'.got ++ l)
    (hwaits : k = true → (∀ w, x.asleep = some w → P.Waits w) ∧ ∀ q w, (u q).asleep = some w → P.Waits w) :
    Inv k { s with pipe := P, freed := b, proc := update u p x } h' := by
  refine ⟨fun w => ?_, fun w => ?_, hfreed, fun q => ?_, hflows, fun hk q w hw => ?_⟩
  · refine (hi.refs w).trans (Finset.sum_congr rfl fun q _ => ?_)
    dsimp only
    by_cases hq : q = p
    · rw [hq, update_self, hfds]
    · rw [update_of_ne hq, (hu q).1]
  · have hsum := sum_of_eq_off (g := fun q => (s.proc q).task.ends w) (k := fun q => (update u p x q).task.ends w) p
      fun q hq => by rw [update_of_ne hq, (hu q).2.1]
    rw [update_self] at hsum
    have h1 := hends w
    have h2 := hi.ends w
    unfold PipeSys.ends at h2 ⊢
    dsimp only
    omega
  · dsimp only
    by_cases hq : q = p
    · rw [hq, update_self]
      exact hx
    · rw [update_of_ne hq]
      exact hu.ok hi q
  · dsimp only at hw
    by_cases hq : q = p
    · rw [hq, update_self] at hw
      exact (hwaits hk).1 w hw
    · rw [update_of_ne hq] at hw
      exact (hwaits hk).2 q w hw

/-- The same for a turn, which opens and closes nothing. -/
theorem Inv.turned (hi : Inv k s h) (hu : Calmer s u) (hfds : x.fds = (s.proc p).fds) (hx : x.Ok) (hopens : P.opens = s.pipe.opens)
    (hends : x.task.ends = (s.proc p).task.ends) (hflows : ∃ l, P.Holds l ∧ h'.sent = h'.got ++ l)
    (hwaits : k = true → (∀ w, x.asleep = some w → P.Waits w) ∧ ∀ q w, (u q).asleep = some w → P.Waits w) :
    Inv k { s with pipe := P, proc := update u p x } h' :=
  hi.rework (b := s.freed) hu hfds hx (fun w => by rw [hopens, hends]) (by rw [hopens]; exact hi.freed) hflows hwaits

theorem Inv.pipeclose (hi : Inv k s h) (hs : s.pipeclose p = some s') : Inv k s' h := by
  unfold PipeSys.pipeclose at hs
  split at hs
  · rename_i w e hp
    cases hs
    have hu : Calmer s (s.wakeup (!w)).proc := calmer_wakeup
    have hawake := hu.awake ((hi.procs p).awake (by rw [hp]; rfl))
    have hopen : s.pipe.opens w = true := hi.opens_iff.mpr (.inr ⟨p, e, hp⟩)
    have hside : ∀ d : Bool, (if d = true then PipeTask.exiting else PipeTask.user).side = none := by decide
    have hnone : ∀ (d : Bool) v, (if d = true then PipeTask.exiting else PipeTask.user).ends v = 0 := by decide
    have hused : ∀ d : Bool, (if d = true then PipeTask.exiting else PipeTask.user) ≠ .unused := by decide
    refine hi.rework hu (hu p).1 (.of_quiet (fun hx => absurd hx (hused e)) (hside e) hawake) (fun v => ?_) ?_ ?_ fun _ => ⟨?_, ?_⟩
    · dsimp only
      rw [hnone e v, hp, Pipe.close_opens]
      by_cases hv : v = w
      · rw [hv, hopen, if_pos rfl, if_pos rfl, if_neg Bool.false_ne_true]
        exact (if_pos rfl).symm
      · have hzero : (PipeTask.ending w e).ends v = 0 := if_neg fun hwv => hv (Eq.symm hwv)
        rw [if_neg hv, hzero]
    · -- The page goes with the second end.
      have hboth : ∀ Q : Pipe, (Q.readopen = false ∧ Q.writeopen = false) ↔ ∀ v, Q.opens v = false := by
        intro Q
        rw [Bool.forall_bool]
        rfl
      have hkept : ¬s.freed = true := fun hf => absurd (hi.freed.mp hf w) (by rw [hopen]; decide)
      rw [← hboth]
      split
      · rename_i hclosed
        exact iff_of_true rfl hclosed
      · rename_i hclosed
        exact iff_of_false hkept hclosed
    · obtain ⟨l, hl, hsent⟩ := hi.flows
      exact ⟨l, by cases w <;> exact hl, hsent⟩
    · intro v hv
      cases hawake.symm.trans hv
    · -- Those who use the same end see nothing of it.
      intro q v hv
      obtain ⟨hq, hvw⟩ := of_wakeup hv
      rw [Bool.not_not] at hvw
      subst hvw
      have hw := hi.waits ‹_› q v hq
      cases v <;> exact hw
  · cases hs

/-- A turn of `pipewrite` sends what it puts into the pipe. -/
theorem Inv.pipewrite {rest : List UInt8} (hi : Inv k s h) (hlive : k = true → (s.proc p).killed = false)
    (hp : (s.proc p).asleep = none) (ht : (s.proc p).task = .writing rest) (hs : s.turn p = some s') :
    Inv k s' { h with sent := h.sent ++ (s.pipe.pipewrite (s.proc p).killed rest).2.1 } := by
  obtain ⟨hopens, hend⟩ := Pipe.pipewrite_end (s.proc p).killed s.pipe rest
  have hflows : ∃ l, (s.pipe.pipewrite (s.proc p).killed rest).1.Holds l ∧
      h.sent ++ (s.pipe.pipewrite (s.proc p).killed rest).2.1 = h.got ++ l := by
    obtain ⟨l, hl, hsent⟩ := hi.flows
    exact ⟨_, hl.pipewrite, by rw [hsent, List.append_assoc]⟩
  -- A pipe that is full is not changed.
  have hfull : k = true → ∀ q, (s.proc q).asleep = some true → (s.pipe.pipewrite (s.proc p).killed rest).1.Waits true := by
    intro hk q hq
    have hw := hi.waits hk q true hq
    rw [Pipe.pipewrite_of_full hw.1]
    exact hw
  have hwoken : k = true → ∀ q v, ((s.wakeup false).proc q).asleep = some v →
      (s.pipe.pipewrite (s.proc p).killed rest).1.Waits v := by
    intro hk q v hv
    obtain ⟨hq, rfl⟩ := of_wakeup hv
    exact hfull hk q hq
  have hu : Calmer s (s.wakeup false).proc := calmer_wakeup
  have hnone : (s.proc p).task.ends = fun _ => 0 := by rw [ht]; rfl
  simp only [PipeSys.turn, ht] at hs
  cases he : (s.pipe.pipewrite (s.proc p).killed rest).2.2 with
  | done =>
    rw [he] at hs
    cases hs
    refine hi.turned hu (hu p).1 (.of_quiet (fun hx => by cases hx) rfl (hu.awake hp)) hopens (by rw [hnone]; rfl) hflows
      fun hk => ⟨?_, hwoken hk⟩
    intro v hv
    cases (hu.awake hp).symm.trans hv
  | fail =>
    rw [he] at hs hend
    cases hs
    refine hi.turned calmer_self rfl (.of_quiet (fun hx => by cases hx) rfl hp) hopens (by rw [hnone]; rfl) hflows fun hk => ⟨?_, ?_⟩
    · intro v hv
      cases hp.symm.trans hv
    · intro q v hv
      cases v with
      | true => exact hfull hk q hv
      | false =>
        -- Its reader is there, and it has not been killed.
        have hread : s.pipe.readopen = true := (hi.opens_iff (w := false)).mpr (hi.held_of_side ((hi.procs q).asleep false hv))
        rcases hend with hclosed | hkilled
        · cases hread.symm.trans hclosed
        · cases (hlive hk).symm.trans hkilled
  | sleep rest' =>
    rw [he] at hs hend
    cases hs
    refine hi.turned hu (hu p).1 ⟨fun hx => (by cases hx), fun v hv => ?_, fun v hv => hv⟩ hopens (by rw [hnone]; rfl) hflows
      fun hk => ⟨?_, hwoken hk⟩
    · have hpos : 0 < ((s.wakeup false).proc p).fds true := by
        rw [(hu p).1]
        exact (hi.procs p).busy true (by rw [ht]; rfl)
      cases hv
      exact hpos
    · intro v hv
      cases hv
      exact hend

/-- A turn of `piperead` delivers what it takes out. -/
theorem Inv.piperead {n : Nat} (hi : Inv k s h) (hp : (s.proc p).asleep = none) (ht : (s.proc p).task = .reading n)
    (hs : s.turn p = some s') : Inv k s' (s.record h (.turn p)) := by
  obtain ⟨hopens, hend⟩ := Pipe.piperead_end (s.proc p).killed s.pipe n
  have hnone : (s.proc p).task.ends = fun _ => 0 := by rw [ht]; rfl
  simp only [PipeSys.turn, ht] at hs
  cases he : (s.pipe.piperead (s.proc p).killed n).2 with
  | done bytes =>
    have hrec : s.record h (.turn p) = { h with got := h.got ++ bytes } := by simp only [record, ht, he]
    have hu : Calmer s (s.wakeup true).proc := calmer_wakeup
    rw [he] at hs hend
    cases hs
    rw [hrec]
    refine hi.turned hu (hu p).1 (.of_quiet (fun hx => by cases hx) rfl (hu.awake hp)) hopens (by rw [hnone]; rfl) ?_ fun hk => ⟨?_, ?_⟩
    · obtain ⟨l, hl, hsent⟩ := hi.flows
      obtain ⟨hrest, htake⟩ := hl.copyOut (n := n)
      rw [hend.2] at hrest htake
      dsimp only at hrest htake
      exact ⟨_, hrest, by rw [htake, hsent, List.append_assoc, List.take_append_drop]⟩
    · intro v hv
      cases (hu.awake hp).symm.trans hv
    · -- Nobody waits for bytes where one has come through.
      intro q v hv
      obtain ⟨hq, rfl⟩ := of_wakeup hv
      exact absurd (hi.waits hk q _ hq) hend.1
  | fail =>
    have hrec : s.record h (.turn p) = h := by simp only [record, ht, he]
    rw [he] at hs hend
    cases hs
    rw [hrec]
    refine hi.turned calmer_self rfl (.of_quiet (fun hx => by cases hx) rfl hp) hopens (by rw [hnone]; rfl) ?_ fun hk => ⟨?_, ?_⟩
    · rw [hend]
      exact hi.flows
    · intro v hv
      cases hp.symm.trans hv
    · rw [hend]
      exact hi.waits hk
  | sleep =>
    have hrec : s.record h (.turn p) = h := by simp only [record, ht, he]
    rw [he] at hs hend
    cases hs
    rw [hrec]
    refine hi.turned calmer_self rfl ⟨fun hx => (by cases hx), fun v hv => ?_, fun v hv => hv⟩ hopens (by rw [hnone]; rfl) ?_
      fun hk => ⟨?_, ?_⟩
    · cases hv
      exact (hi.procs p).busy false (by rw [ht]; rfl)
    · rw [hend.1]
      exact hi.flows
    · intro v hv
      cases hv
      rw [hend.1]
      exact hend.2
    · rw [hend.1]
      exact hi.waits hk

/-! ## Runs -/

/-- Every step keeps the invariant. -/
theorem Inv.step {a : PipeAct} (hi : Inv k s h) (hlive : k = true → WritersLive s a) (hs : s.step a = some s') :
    Inv k s' (s.record h a) := by
  cases a with
  | sysDup p w =>
    simp only [PipeSys.step, Option.ite_none_right_eq_some] at hs
    exact hi.sysDup hs.1.1 hs.2
  | fileclose p w =>
    simp only [PipeSys.step, Option.ite_none_right_eq_some] at hs
    exact hi.fileclose hs.1.1 hs.1.2 hs.2
  | pipeclose p => exact hi.pipeclose hs
  | fork p c =>
    simp only [PipeSys.step, Option.ite_none_right_eq_some] at hs
    exact hi.fork hs.1.2 hs.2
  | exit p =>
    simp only [PipeSys.step, Option.ite_none_right_eq_some] at hs
    obtain ⟨hp, hs⟩ := hs
    cases hs
    exact hi.shift rfl (by rw [hp]; rfl) (.of_quiet (fun hx => by cases hx) rfl ((hi.procs p).awake (by rw [hp]; rfl))) fun _ hw => hw
  | wait c =>
    simp only [PipeSys.step, Option.ite_none_right_eq_some] at hs
    obtain ⟨⟨hc, hzero⟩, hs⟩ := hs
    cases hs
    exact hi.shift rfl (by rw [hc]; rfl) (.of_quiet (fun _ => hzero) rfl ((hi.procs c).awake (by rw [hc]; rfl))) fun _ hw => hw
  | sysWrite p bytes | sysRead p n =>
    simp only [PipeSys.step, Option.ite_none_right_eq_some] at hs
    obtain ⟨⟨hp, hf⟩, hs⟩ := hs
    cases hs
    exact hi.shift rfl (by rw [hp]; rfl) (.of_busy hf rfl ((hi.procs p).awake (by rw [hp]; rfl))) fun _ hw => hw
  | turn p =>
    simp only [PipeSys.step, Option.ite_none_right_eq_some] at hs
    obtain ⟨hp, hs⟩ := hs
    cases ht : (s.proc p).task with
    | writing rest =>
      have hrec : s.record h (.turn p) = { h with sent := h.sent ++ (s.pipe.pipewrite (s.proc p).killed rest).2.1 } := by
        simp only [record, ht]
      rw [hrec]
      exact hi.pipewrite (fun hk => hlive hk (by simp only [writes, ht])) hp ht hs
    | reading n => exact hi.piperead hp ht hs
    | unused | user | exiting | ending w e => simp only [PipeSys.turn, ht] at hs; cases hs
  | kill p wakes =>
    simp only [PipeSys.step, Option.ite_none_left_eq_some] at hs
    obtain ⟨-, hs⟩ := hs
    cases hs
    have hasleep : ∀ w, (if wakes = true then none else (s.proc p).asleep) = some w → (s.proc p).asleep = some w := by
      intro w hw
      split at hw
      · cases hw
      · exact hw
    exact hi.shift rfl rfl ⟨(hi.procs p).idle, (hi.procs p).busy, fun w hw => (hi.procs p).asleep w (hasleep w hw)⟩ hasleep

theorem start_inv {data : Fin PIPESIZE → UInt8} {used : Slot → Bool} : Inv k (start data p used) ⟨[], []⟩ := by
  have htask : ∀ q, ((start data p used).proc q).task = .user ∨ q ≠ p ∧ ((start data p used).proc q).task = .unused := by
    intro q
    unfold start
    dsimp only
    split
    · exact .inl rfl
    · rename_i hno
      exact .inr ⟨fun hq => hno (.inl hq), rfl⟩
  have hside : ∀ q, ((start data p used).proc q).task.side = none := by
    intro q
    rcases htask q with hq | ⟨-, hq⟩ <;> rw [hq] <;> rfl
  refine ⟨fun w => ?_, fun w => ?_, ?_, fun q => ?_, ⟨[], Fifo.Holds.nil _ (by decide), rfl⟩, fun _ q w hw => by cases hw⟩
  · have hsum : ∑ q : Slot, (if q = p then 1 else 0) = 1 := by rw [Finset.sum_ite_eq', if_pos (Finset.mem_univ p)]
    unfold start
    dsimp only
    exact hsum.symm
  · unfold PipeSys.ends
    rw [Finset.sum_eq_zero]
    · cases w <;> rfl
    · intro q _
      rcases htask q with hq | ⟨-, hq⟩ <;> rw [hq] <;> rfl
  · exact iff_of_false Bool.false_ne_true fun hall => by cases hall true
  · refine .of_quiet (fun hq w => ?_) (hside q) rfl
    rcases htask q with hu | ⟨hne, -⟩
    · cases hu.symm.trans hq
    · exact if_neg hne

/-- So it holds in every run. -/
theorem inv_of_traced {x : PipeSys × Stream} (hr : traced.Reachable x) : Inv false x.1 x.2 := by
  refine Sys.Reach.invariant (I := fun x => Inv false x.1 x.2) ?_ (fun x a y hi _ hs => ?_) hr
  · rintro ⟨s, h⟩ ⟨⟨data, p, used, rfl⟩, rfl⟩
    exact start_inv
  · obtain ⟨s', hstep, rfl⟩ := Option.map_eq_some_iff.mp hs
    exact hi.step (fun hk => by cases hk) hstep

/-- In a run where no writer is killed the waits are right as well. -/
theorem inv_of_reach {ok : PipeSys → PipeAct → Prop} (hok : k = true → ∀ s a, ok s a → WritersLive s a) (hr : sys.Reach ok s) :
    ∃ h, Inv k s h := by
  refine Sys.Reach.invariant (I := fun s => ∃ h, Inv k s h) ?_ (fun s a s' hi ha hs => ?_) hr
  · rintro s ⟨data, p, used, rfl⟩
    exact ⟨_, start_inv⟩
  · obtain ⟨h, hi⟩ := hi
    exact ⟨_, hi.step (fun hk => hok hk s a ha) hs⟩

end PipeSys

end OsLab
