import OsLab.Lemmas.Shell

/-!
# What launch_pipe leaves behind

When a `fork` of `launch_pipe` fails, the function returns at once: both ends of the pipe stay open in the shell, and after the second
`fork` the left child is not waited for. On every other path it gives back what it has taken (`launch_pipe_cleans_up_iff`).
-/

namespace OsLab.Shell

open Posix ShellAux

/-- `launch_pipe` returns, with the descriptors as they were, and has waited for the children that it has created. -/
def CleansUp (left : Argv) (ln : Nat) (right : Argv) (rn : Nat) (s : Process) : Prop :=
  Cmd.wp (launchPipe left ln right rn)
    (fun _ s' => s'.fds = s.fds ∧ ∀ pid, s.forked ≤ pid → pid < s'.forked → pid ∈ s'.waited) (fun _ => False) s

namespace CleanupAux

variable {s : Process} {r w : Nat}

/-- The end of `launch_pipe` when every call has succeeded. -/
theorem update_back {fds : Fds} {x y : Handle} (hr : fds r = none) (hw : fds w = none) (hne : r ≠ w) :
    Function.update (Function.update (Function.update (Function.update fds r (some x)) w (some y)) r none) w none = fds := by
  have hback : Function.update fds r none = fds := Function.update_eq_self_iff.mpr hr.symm
  rw [Function.update_comm hne, Function.update_idem, Function.update_comm (Ne.symm hne), Function.update_idem, hback]
  exact Function.update_eq_self_iff.mpr hw.symm

/-- As long as an end of the pipe is open the descriptors are not what they were. -/
theorem piped_fds_ne (h : s.pipeOutcome = .ok (r, w)) : (s.piped r w).fds ≠ s.fds := by
  intro heq
  have hw := congrFun heq w
  rw [(pipeOutcome_spec h).2.1] at hw
  simp [Process.piped] at hw

end CleanupAux

open CleanupAux

/-- For all arrays and every outcome of `pipe` and of the two forks: `launch_pipe` cleans up if and only if `pipe` fails or both forks
succeed. -/
theorem launch_pipe_cleans_up_iff (left : Argv) (ln : Nat) (right : Argv) (rn : Nat) (s : Process) :
    CleansUp left ln right rn s ↔ (∃ e, s.pipeOutcome = .error e) ∨ s.answers .fork 0 = none ∧ s.answers .fork 1 = none := by
  obtain ⟨_, s', hrun, hend⟩ := Cmd.exists_of_wp (launchPipe_wp left ln right rn s)
  unfold CleansUp
  rw [Cmd.wp_of_ok hrun]
  cases hend with
  | pipeFails hpipe => exact ⟨fun _ => .inl ⟨_, hpipe⟩, fun _ => ⟨rfl, fun pid hge hlt => absurd hlt (Nat.not_lt.mpr hge)⟩⟩
  | leftFails hpipe hfork =>
    refine ⟨fun hclean => absurd hclean.1 (piped_fds_ne hpipe), ?_⟩
    rintro (⟨e, he⟩ | ⟨hleft, -⟩)
    · cases hpipe.symm.trans he
    · cases hfork.symm.trans hleft
  | rightFails hpipe _ hfork =>
    refine ⟨fun hclean => absurd hclean.1 (piped_fds_ne hpipe), ?_⟩
    rintro (⟨e, he⟩ | ⟨-, hright⟩)
    · cases hpipe.symm.trans he
    · cases hfork.symm.trans hright
  | runs hpipe hleft hright =>
    obtain ⟨hr, hw, hne⟩ := pipeOutcome_spec hpipe
    refine ⟨fun _ => .inr ⟨hleft, hright⟩, fun _ => ⟨update_back hr hw hne, fun pid hge hlt => ?_⟩⟩
    -- the children are the two that have just been created
    have hpid : pid = s.forked ∨ pid = s.forked + 1 := by
      have hlt' : pid < s.forked + 1 + 1 := hlt
      omega
    show pid ∈ s.waited ++ [s.forked] ++ [s.forked + 1]
    simpa [or_assoc] using .inr hpid

/-- After the first `fork` has failed the shell has both ends of the pipe open. After the second one has failed the left child has not been
waited for either. -/
theorem launch_pipe_leaks :
    Cmd.wp (launchPipe [some (ascii "a"), none] 1 [some (ascii "b"), none] 1)
        (fun _ s' => s'.fds 3 = some (.pipeRead 0) ∧ s'.fds 4 = some (.pipeWrite 0)) (fun _ => False)
        { calm terminal 16 [] with answers := fun c n => if c = .fork ∧ n = 0 then some 11 else none } ∧
      Cmd.wp (launchPipe [some (ascii "a"), none] 1 [some (ascii "b"), none] 1)
        (fun _ s' => s'.fds 3 = some (.pipeRead 0) ∧ s'.fds 4 = some (.pipeWrite 0) ∧ s'.forked = 1 ∧ s'.waited = []) (fun _ => False)
        { calm terminal 16 [] with answers := fun c n => if c = .fork ∧ n = 1 then some 11 else none } := by
  decide +kernel

end OsLab.Shell
