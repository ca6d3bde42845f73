import OsLab.Lemmas.Pipe

/-!
# Pipes over whole runs

The reference counts of the two files are exact, so that neither `filedup` nor `fileclose` panics. The page of the pipe is given back when
nobody holds an end any more, and nobody touches it then. What is read is what was written, in order, and a process sleeps only as long as
it has a reason to, unless a writer has been killed.
-/

namespace OsLab

namespace PipeSys

/-! ## Who holds the pipe -/

/-- The reference count of a file is the number of descriptors for it, so that `fileclose`, `dup` and `fork` never panic for want of a
reference. -/
theorem file_refs_exact {s : PipeSys} (h : sys.Reachable s) :
    (∀ w, s.ref w = ∑ p, (s.proc p).fds w) ∧
      (∀ p w, (s.proc p).task = .user ∨ (s.proc p).task = .exiting → 0 < (s.proc p).fds w → (s.step (.fileclose p w)).isSome = true) ∧
      (∀ p w, (s.proc p).task = .user → 0 < (s.proc p).fds w → (s.step (.sysDup p w)).isSome = true) ∧
      ∀ p c, (s.proc p).task = .user → (s.proc c).task = .unused → (s.step (.fork p c)).isSome = true := by
  obtain ⟨g, hi⟩ := inv_of_reach (k := false) (fun hk => by cases hk) h
  refine ⟨hi.refs, fun p w hp hf => ?_, fun p w hp hf => ?_, fun p c hp hc => ?_⟩
  · simp only [PipeSys.step, if_pos (And.intro hp hf), PipeSys.fileclose, if_neg (hi.not_ref_lt hf)]
    split <;> rfl
  · simp only [PipeSys.step, if_pos (And.intro hp hf), PipeSys.sysDup, filedup, if_neg (hi.not_ref_lt hf)]
    rfl
  · simp only [PipeSys.step, if_pos (And.intro hp hc), hi.fork_eq]
    rfl

/-- An end is open exactly as long as it is held, by its file or by one process in `fileclose`. The page has been given back exactly when
nobody holds an end, and a process in `pipewrite`, in `piperead` or before `pipeclose` holds its end, so that it finds the page there. -/
theorem pipe_page_in_use {s : PipeSys} (h : sys.Reachable s) :
    (∀ w, s.ends w ≤ 1 ∧ (s.pipe.opens w = true ↔ s.Held w)) ∧ (s.freed = true ↔ ∀ w, ¬s.Held w) ∧
      ∀ p w, (s.proc p).task.side = some w ∨ (∃ e, (s.proc p).task = .ending w e) → s.Held w ∧ s.freed = false := by
  obtain ⟨g, hi⟩ := inv_of_reach (k := false) (fun hk => by cases hk) h
  have hfreed : s.freed = true ↔ ∀ w, ¬s.Held w := by
    rw [hi.freed]
    exact forall_congr' fun w => by rw [← hi.opens_iff, Bool.not_eq_true]
  refine ⟨fun w => ⟨?_, hi.opens_iff⟩, hfreed, fun p w hp => ?_⟩
  · rw [hi.ends w]
    split <;> omega
  · have hheld : s.Held w := by
      rcases hp with hside | ⟨e, hend⟩
      · exact hi.held_of_side hside
      · exact .inr ⟨p, e, hend⟩
    refine ⟨hheld, ?_⟩
    rw [← Bool.not_eq_true]
    exact fun hf => hfreed.mp hf w hheld

/-- A new pipe of the first process. -/
abbrev sampleStart : PipeSys := start (fun _ => 0) 0 fun _ => false

theorem init_sample : sys.init sampleStart := ⟨_, _, _, rfl⟩

theorem file_refs_exact_sample : ∃ s, sys.Reachable s ∧ s.ref true = 3 ∧ ∀ w, s.ref w = ∑ p, (s.proc p).fds w := by
  have hrun : ((sys.run sampleStart [.fork 0 1, .sysDup 1 true]).map fun s => s.ref true) = some 3 := rfl
  obtain ⟨s, hs, href⟩ := Option.map_eq_some_iff.mp hrun
  have hreach := Sys.reachable_of_run init_sample hs
  exact ⟨s, hreach, href, (file_refs_exact hreach).1⟩

/-- The child reads when the parent has exited. -/
theorem pipe_page_in_use_sample : ∃ s, sys.Reachable s ∧ s.pipe.writeopen = false ∧ s.Held false ∧ s.freed = false := by
  have hrun : ((sys.run sampleStart [.fork 0 1, .fileclose 1 true, .exit 0, .fileclose 0 false, .fileclose 0 true, .pipeclose 0, .wait 0,
      .sysRead 1 5]).map fun s => (s.pipe.writeopen, (s.proc 1).task)) = some (false, .reading 5) := rfl
  obtain ⟨s, hs, hval⟩ := Option.map_eq_some_iff.mp hrun
  obtain ⟨hclosed, htask⟩ := Prod.mk.inj hval
  have hreach := Sys.reachable_of_run init_sample hs
  exact ⟨s, hreach, hclosed, (pipe_page_in_use hreach).2.2 1 false (.inl (by rw [htask]; rfl))⟩

/-! ## What goes through it -/

/-- What has been read is the beginning of what has been written, and at most `PIPESIZE` bytes are under way, whoever reads and writes, in
whatever order, and however often the counters have wrapped. -/
theorem pipe_delivers_in_order {x : PipeSys × Stream} (h : traced.Reachable x) :
    ∃ l, l.length ≤ PIPESIZE ∧ x.1.pipe.Holds l ∧ x.2.sent = x.2.got ++ l := by
  obtain ⟨l, hl, hsent⟩ := (inv_of_traced h).flows
  exact ⟨l, hl.length, hl, hsent⟩

theorem init_traced : traced.init (sampleStart, ⟨[], []⟩) := ⟨init_sample, rfl⟩

theorem pipe_delivers_in_order_sample : ∃ x, traced.Reachable x ∧ x.2.got = [1, 2] ∧
    ∃ l, l.length ≤ PIPESIZE ∧ x.1.pipe.Holds l ∧ x.2.sent = x.2.got ++ l := by
  have hrun : ((traced.run (sampleStart, ⟨[], []⟩) [.fork 0 1, .sysWrite 0 [1, 2, 3], .turn 0, .sysRead 1 2, .turn 1]).map
      fun x => x.2.got) = some [1, 2] := rfl
  obtain ⟨x, hx, hgot⟩ := Option.map_eq_some_iff.mp hrun
  have hreach := Sys.reachable_of_run init_traced hx
  exact ⟨x, hreach, hgot, pipe_delivers_in_order hreach⟩

/-- A read of some bytes comes back with none only when everything that was ever written has been read and nobody holds the other end,
and a write fails only when nobody holds the other end or the process has been killed. -/
theorem pipe_end_of_file {x : PipeSys × Stream} {p : Slot} (h : traced.Reachable x) :
    (∀ n, (x.1.proc p).task = .reading (n + 1) → (x.1.pipe.piperead (x.1.proc p).killed (n + 1)).2 = .done [] →
      x.2.sent = x.2.got ∧ ¬x.1.Held true) ∧
      ∀ rest, (x.1.proc p).task = .writing rest → (x.1.pipe.pipewrite (x.1.proc p).killed rest).2.2 = .fail →
        (x.1.proc p).killed = true ∨ ¬x.1.Held false := by
  have hi := inv_of_traced h
  refine ⟨fun n _ he => ?_, fun rest _ he => ?_⟩
  · obtain ⟨l, hl, hsent⟩ := hi.flows
    have hend := (Pipe.piperead_end (x.1.proc p).killed x.1.pipe (n + 1)).2
    rw [he] at hend
    have hnil : l = [] := by
      have htake := (hl.copyOut (n := n + 1)).2
      rw [hend.2] at htake
      cases l with
      | nil => rfl
      | cons c l => cases htake
    refine ⟨by rw [hsent, hnil, List.append_nil], fun hheld => hend.1 ⟨hl.empty_iff.mpr hnil, ?_⟩⟩
    exact hi.opens_iff.mpr hheld
  · have hend := (Pipe.pipewrite_end (x.1.proc p).killed x.1.pipe rest).2
    rw [he] at hend
    rcases hend with hclosed | hkilled
    · refine .inr fun hheld => ?_
      have hopen : x.1.pipe.readopen = true := hi.opens_iff.mpr hheld
      cases hopen.symm.trans hclosed
    · exact .inl hkilled

/-- The child reads when both have closed the other end. -/
theorem pipe_end_of_file_sample : ∃ x, traced.Reachable x ∧ x.2.sent = [1, 2] ∧ x.2.sent = x.2.got ∧ ¬x.1.Held true := by
  have hrun : ((traced.run (sampleStart, ⟨[], []⟩) [.fork 0 1, .sysWrite 0 [1, 2], .turn 0, .sysRead 1 2, .turn 1, .fileclose 0 true,
      .fileclose 1 true, .pipeclose 1, .sysRead 1 5]).map fun x =>
        (x.2.sent, (x.1.proc 1).task, (x.1.pipe.piperead (x.1.proc 1).killed 5).2)) = some ([1, 2], .reading 5, .done []) := rfl
  obtain ⟨x, hx, hval⟩ := Option.map_eq_some_iff.mp hrun
  obtain ⟨hsent, hval⟩ := Prod.mk.inj hval
  obtain ⟨htask, hread⟩ := Prod.mk.inj hval
  have hreach := Sys.reachable_of_run init_traced hx
  exact ⟨x, hreach, hsent, (pipe_end_of_file hreach).1 4 htask hread⟩

/-! ## Who sleeps on it -/

/-- Where no process takes a turn in `pipewrite` after it has been killed, a process sleeps only as long as it has to: a reader while the
pipe is empty and somebody may write, a writer while it is full and somebody may read. No wakeup is lost. -/
theorem pipe_sleeper_has_reason {s : PipeSys} {p : Slot} {w : Bool} (h : sys.Reach WritersLive s) (hp : (s.proc p).asleep = some w) :
    (if w then s.pipe.full else s.pipe.empty) = true ∧ s.Held (!w) ∧ s.Held w := by
  obtain ⟨g, hi⟩ := inv_of_reach (k := true) (fun _ _ _ hok => hok) h
  obtain ⟨hwait, hopen⟩ := hi.waits rfl p w hp
  exact ⟨hwait, hi.opens_iff.mp hopen, hi.held_of_side ((hi.procs p).asleep w hp)⟩

theorem pipe_sleeper_has_reason_sample : ∃ s, sys.Reach WritersLive s ∧ (s.proc 1).asleep = some false ∧ s.pipe.empty = true ∧
    s.Held true ∧ s.Held false := by
  have hrun : ((sys.runOk WritersLive sampleStart [.fork 0 1, .sysRead 1 3, .turn 1]).map fun s => (s.proc 1).asleep) =
      some (some false) := rfl
  obtain ⟨s, hs, hasleep⟩ := Option.map_eq_some_iff.mp hrun
  have hreach := Sys.Reach.runOk (.init init_sample) hs
  exact ⟨s, hreach, hasleep, pipe_sleeper_has_reason hreach hasleep⟩

set_option maxRecDepth 8000 in
/-- The condition is needed: a writer that finds itself killed when the pipe is full returns without a wakeup, and leaves a reader
asleep on a pipe that is full. -/
theorem reader_left_asleep : ∃ s, sys.Reachable s ∧ (s.proc 1).asleep = some false ∧ s.pipe.full = true ∧ (s.proc 0).task = .user := by
  have hrun : ((sys.run sampleStart [.fork 0 1, .sysRead 1 3, .turn 1, .sysWrite 0 (List.replicate 600 0), .kill 0 true, .turn 0]).map
      fun s => ((s.proc 1).asleep, s.pipe.full, (s.proc 0).task)) = some (some false, true, .user) := rfl
  obtain ⟨s, hs, hval⟩ := Option.map_eq_some_iff.mp hrun
  obtain ⟨h1, hval⟩ := Prod.mk.inj hval
  obtain ⟨h2, h3⟩ := Prod.mk.inj hval
  exact ⟨s, Sys.reachable_of_run init_sample hs, h1, h2, h3⟩

end PipeSys

end OsLab
