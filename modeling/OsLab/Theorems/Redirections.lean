import OsLab.Lemmas.Redirections

/-!
# The redirections of a command

`apply_redirections` does what the recursion over the tokens does, with one exception: when the descriptor that it redirects is
not in use, it
may be the one that `open` returns. Then `dup2` does nothing, `close` takes the file away again, and the descriptor is closed. With standard
input and standard output open this cannot happen (`apply_redirections_iff`).
-/

namespace OsLab.Shell

open Posix ShellAux

/-- `apply_redirections` on the array of these tokens does what the recursion does: it comes to an end, in the same state and with the same
failure if there is one. Otherwise the array holds the tokens that are left, in their order and with a null pointer behind them, and `*n` is
their number; the last redirection of each descriptor has won. The array has no elements but those from 0 to `n`. -/
structure Refines (s : Process) (ts : List Bytes) : Prop where
  same : Cmd.Same (fun r ks => Holds r.1 ks ∧ r.2 = ks.length ∧ r.1.length = ts.length + 1)
    (applyRedirections (ts.map some ++ [none]) ts.length) (redirected perform ts) s
  last : ∀ r s', applyRedirections (ts.map some ++ [none]) ts.length s = .ok (r, s') → s'.fds = redirect (redirectionsOf ts) s.fds

namespace RedirAux

variable {s s' : Process} {t : Bytes} {d : Nat} {mode : OpenMode}

theorem refines_of_stdOpen (ts : List Bytes) (h : StdOpen s.fds) : Refines s ts := by
  have hsame := (applyRedirections_same [] ts s).trans (redirected_same h)
  refine ⟨hsame.mono fun r ks hr => ?_, fun r s' hrun => ?_⟩
  · obtain ⟨ks', hkept, rfl⟩ := hr
    exact hkept
  · rcases hsame with ⟨r', ks, s'', hloop, hrec, -⟩ | ⟨e, hloop, -⟩
    · cases hrun.symm.trans hloop
      exact redirected_fds hrec
    · cases hrun.symm.trans hloop

/-- When `open` returns the descriptor that is to be redirected, this descriptor is closed in the end. -/
theorem not_refines_of_alias (ht : redirection t = some (d, mode)) (h : s.openOutcome = .ok d) (f : Bytes) : ¬ Refines s [t, f] := by
  intro hrefines
  have hrec : redirected redirectTo [t, f] s = redirected redirectTo [] (s.opened f mode (Function.update (Function.update (Function.update
      s.fds d (some (.file f mode))) d (some (.file f mode))) d none)) := by
    rw [redirected_operator ht, Cmd.bind_of_ok (redirectTo_ok h)]
  rcases applyRedirections_same [] [t, f] s with ⟨r, ks, s', hloop, hrun, -⟩ | ⟨e, -, hrun⟩
  · have hlast := congrFun (hrefines.last r s' hloop) d
    rw [hrec] at hrun
    cases hrun
    rw [redirectionsOf_operator ht, redirect_cons] at hlast
    simp [Process.opened, redirect, redirectionsOf] at hlast
  · rw [hrec] at hrun
    cases hrun

end RedirAux

open RedirAux

/-- For every set of open descriptors: `apply_redirections` does what the recursion does, for every array of at most 63 tokens and every
outcome of `open`, if and only if standard input and standard output are open. -/
theorem apply_redirections_iff (fds : Fds) :
    (∀ (s : Process) (ts : List Bytes), s.fds = fds → ts.length ≤ 63 → Refines s ts) ↔ StdOpen fds := by
  constructor
  · intro hall
    by_contra hclosed
    cases hin : fds STDIN with
    | none =>
      have houtcome : (calm fds 1 []).openOutcome = .ok STDIN :=
        openOutcome_of_lowest (fun _ => rfl) (lowest_succ hin fun k hk => absurd hk (Nat.not_lt_zero k))
      exact not_refines_of_alias (show redirection (ascii "<") = some (STDIN, .read) from rfl) houtcome (ascii "f")
        (hall _ _ rfl (by decide))
    | some x =>
      have hout : fds STDOUT = none := by simpa [StdOpen, hin] using hclosed
      have houtcome : (calm fds 2 []).openOutcome = .ok STDOUT :=
        openOutcome_of_lowest (fun _ => rfl) (lowest_succ hout fun k hk => by
          rw [Nat.lt_one_iff.mp hk]
          exact Option.isSome_of_eq_some hin)
      exact not_refines_of_alias (show redirection (ascii ">") = some (STDOUT, .truncate) from rfl) houtcome (ascii "f")
        (hall _ _ rfl (by decide))
  · intro hopen s ts hs _
    exact refines_of_stdOpen ts (hs ▸ hopen)

/-- The descriptors of a shell that was started with standard output closed. -/
def noStdout : Fds
  | 0 => some (.inherited 0)
  | 2 => some (.inherited 2)
  | _ => none

/-- With standard output closed, `> f` opens the file and leaves standard output closed. -/
theorem redirection_lost :
    redirection (ascii ">") = some (STDOUT, .truncate) ∧
      Cmd.wp (applyRedirections [some (ascii ">"), some (ascii "f"), none] 2)
        (fun r s' => r.2 = 0 ∧ s'.opens = [(ascii "f", .truncate, none)] ∧ s'.fds STDOUT = none) (fun _ => False)
        (calm noStdout 16 []) := by
  decide +kernel

end OsLab.Shell
