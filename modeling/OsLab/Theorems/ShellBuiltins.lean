import OsLab.Lemmas.Shell

/-!
# Operators behind a built-in

For a program the operators of a line mean what they should: the program gets the arguments alone, and its output goes where the last
redirection of it leads, or else into the pipe (`program_obeys`). But `run_builtin` is called before anything looks for an operator. So a
built-in that prints gets the operators and their operands for arguments and prints on the standard output of the shell; it obeys the
operators of no line that has one (`builtin_obeys_iff`).
-/

namespace OsLab.Shell

open Function (update update_self update_of_ne)
open Cmd
open Posix ShellAux

/-- Where the output of the first command of a line goes. -/
def outputOf (ts : List Bytes) (s : Process) : Option Handle :=
  redirect (redirectionsOf (firstCommand ts))
    (if ascii "|" ∈ ts then update s.fds STDOUT (some (.pipeWrite s.pipes)) else s.fds) STDOUT

/-- The operators of the line have been obeyed: a built-in gets the arguments of the first command, and so does the program that is run for
it; what the shell prints goes where the output of that command goes, and so does what the program prints. -/
structure Obeys (ts : List Bytes) (s s' : Process) : Prop where
  builtins : ∃ evs, s'.ran = s.ran ++ evs ∧ ∀ args, .builtin args ∈ evs → argsOf (firstCommand ts) = some args
  prints : ∃ outs, s'.out = s.out ++ outs ∧ ∀ o ∈ outs, o.1 = outputOf ts s
  programs : ∃ first others, s'.execs = s.execs ++ (first ++ others) ∧ (ascii "|" ∉ ts → others = []) ∧
    ∀ e ∈ first, argsOf (firstCommand ts) = some e.args ∧ e.fds STDOUT = outputOf ts s

namespace BuiltinsAux

variable {a : Argv} {ts c : List Bytes} {t : Bytes} {s s' : Process} {fds fds' : Fds} {l : List Bytes}

theorem firstCommand_of_not_mem (h : ascii "|" ∉ ts) : firstCommand ts = ts :=
  List.takeWhile_eq_self_iff.mpr fun t ht => by simpa using fun heq : t = ascii "|" => h (heq ▸ ht)

theorem outputOf_of_not_mem (h : ascii "|" ∉ ts) (s : Process) : outputOf ts s = redirect (redirectionsOf ts) s.fds STDOUT := by
  rw [outputOf, firstCommand_of_not_mem h, if_neg h]

theorem outputOf_append {r : List Bytes} (h : ascii "|" ∉ l) (s : Process) : outputOf (l ++ ascii "|" :: r) s =
    redirect (redirectionsOf l) (update s.fds STDOUT (some (.pipeWrite s.pipes))) STDOUT := by
  rw [outputOf, firstCommand_of_append h, if_pos (List.mem_append_right _ List.mem_cons_self)]

theorem redirect_congr {d : Nat} (rs : List (Nat × Handle)) (h : fds d = fds' d) : redirect rs fds d = redirect rs fds' d := by
  unfold redirect
  rw [h]

/-! ## Programs -/

/-- What a child calls `execvp` with: the arguments of its command, and the descriptors after its redirections. -/
theorem execChild_fds (h : Holds a c) (hstd : StdOpen s.fds) (hexecs : s.execs = []) :
    ∀ e ∈ (finalState (execChild a c.length s)).execs, argsOf c = some e.args ∧ e.fds = redirect (redirectionsOf c) s.fds := by
  intro e he
  cases hrec : redirected redirectTo c s with
  | error r =>
    rw [(execChild_failed h hrec).1, hexecs] at he
    cases he
  | ok r =>
    obtain ⟨ks, s'⟩ := r
    obtain ⟨hargs, hran⟩ := execChild_ran h hrec
    rw [hran, hexecs, List.nil_append, List.mem_singleton] at he
    subst he
    refine ⟨hargs, ?_⟩
    have hsame : Cmd.Same Eq (redirected redirectTo c) (redirected perform c) s := redirected_same hstd
    rcases hsame with ⟨ks', ks'', s'', hto, hperform, -⟩ | ⟨r, hto, -⟩
    · cases hrec.symm.trans hto
      exact redirected_fds hperform
    · cases hrec.symm.trans hto

/-- A line that is left to programs. -/
theorem Obeys.of_programs {ev : Event} (first others : List Exec) (hran : s'.ran = s.ran ++ [ev]) (hev : ∀ args, ev ≠ .builtin args)
    (hout : s'.out = s.out) (hexecs : s'.execs = s.execs ++ (first ++ others)) (hothers : ascii "|" ∉ ts → others = [])
    (hfirst : ∀ e ∈ first, argsOf (firstCommand ts) = some e.args ∧ e.fds STDOUT = outputOf ts s) : Obeys ts s s' :=
  ⟨⟨[ev], hran, fun args hmem => absurd (List.mem_singleton.mp hmem).symm (hev args)⟩, ⟨[], by rw [hout, List.append_nil], nofun⟩,
    first, others, hexecs, hothers, hfirst⟩

/-- A line for which no program is run. -/
theorem Obeys.of_no_program {ev : Event} (hran : s'.ran = s.ran ++ [ev]) (hev : ∀ args, ev ≠ .builtin args) (hout : s'.out = s.out)
    (hexecs : s'.execs = s.execs) : Obeys ts s s' :=
  Obeys.of_programs [] [] hran hev hout (by rw [hexecs, List.append_nil, List.append_nil]) (fun _ => rfl) nofun

theorem Obeys.of_single (h : Holds a ts) (hp : ascii "|" ∉ ts) (hstd : StdOpen s.fds) (hend : SingleEnd a ts.length s s') :
    Obeys ts s s' := by
  cases hend with
  | forkFails => exact Obeys.of_no_program rfl nofun rfl rfl
  | runs =>
    let s₀ := s.recorded (.single (held a ts.length))
    refine Obeys.of_programs (s₀.childEnd (execChild a ts.length)).execs [] rfl nofun rfl (by rw [List.append_nil]; rfl) (fun _ => rfl)
      fun e he => ?_
    obtain ⟨hargs, hfds⟩ := execChild_fds (s := (s₀.popped .fork).child) h hstd rfl e he
    rw [firstCommand_of_not_mem hp, outputOf_of_not_mem hp, hfds]
    exact ⟨hargs, rfl⟩

/-- The ends of a new pipe are neither standard input nor standard output. -/
theorem pipe_ne_std {r w : Nat} (hstd : StdOpen s.fds) (hpipe : s.pipeOutcome = .ok (r, w)) :
    (STDIN ≠ r ∧ STDOUT ≠ r) ∧ STDIN ≠ w ∧ STDOUT ≠ w := by
  obtain ⟨hr, hw, -⟩ := pipeOutcome_spec hpipe
  have hne : ∀ {d k : Nat}, (s.fds d).isSome → s.fds k = none → d ≠ k := fun hd hk heq => by
    rw [heq, hk] at hd
    cases hd
  exact ⟨⟨hne hstd.1 hr, hne hstd.2 hr⟩, hne hstd.1 hw, hne hstd.2 hw⟩

/-- The left child of a pipe. -/
theorem leftChild_obeys {r w : Nat} (h : Holds a l) (hl : ascii "|" ∉ l) (hstd : StdOpen s.fds) (hpipe : s.pipeOutcome = .ok (r, w))
    (right : List Bytes) :
    ∀ e ∈ ((s.piped r w).childEnd (leftChild r w a l.length)).execs,
      argsOf (firstCommand (l ++ ascii "|" :: right)) = some e.args ∧ e.fds STDOUT = outputOf (l ++ ascii "|" :: right) s := by
  intro e he
  rw [firstCommand_of_append hl]
  obtain ⟨-, -, hne⟩ := pipeOutcome_spec hpipe
  obtain ⟨⟨hinr, houtr⟩, hinw, houtw⟩ := pipe_ne_std hstd hpipe
  unfold Process.childEnd leftChild at he
  rw [pipeChild_eq (s := ((s.piped r w).popped .fork).child) (Ne.symm hne) (piped_fds_write s r w)] at he
  have hstd' : StdOpen (s.piped r w).fds := stdOpen_update (stdOpen_update hstd _) _
  obtain ⟨hargs, hfds⟩ := execChild_fds h (stdOpen_close (stdOpen_update (stdOpen_close hstd' hinr houtr) _) hinw houtw) rfl e he
  refine ⟨hargs, ?_⟩
  rw [outputOf_append hl, hfds]
  have hout : update (update (update (s.piped r w).fds r none) STDOUT (some (.pipeWrite s.pipes))) w none STDOUT =
      update s.fds STDOUT (some (.pipeWrite s.pipes)) STDOUT := by
    rw [update_of_ne houtw, update_self, update_self]
  exact redirect_congr _ hout

theorem Obeys.of_pipe {left right : Argv} {r : List Bytes} (hleft : Holds left l) (hl : ascii "|" ∉ l) (hstd : StdOpen s.fds)
    (hend : PipeEnd left l.length right r.length s s') : Obeys (l ++ ascii "|" :: r) s s' := by
  have hfirst : ∀ {i o : Nat}, s.pipeOutcome = .ok (i, o) →
      ∀ e ∈ ((pipeMade left l.length right r.length s i o).childEnd (leftChild i o left l.length)).execs, _ := fun hpipe =>
    leftChild_obeys (s := s.recorded (.pipeline (held left l.length) (held right r.length))) hleft hl hstd hpipe r
  cases hend with
  | pipeFails | leftFails => exact Obeys.of_no_program rfl nofun rfl rfl
  | rightFails hpipe =>
    refine Obeys.of_programs _ [] rfl nofun rfl ?_ (fun _ => rfl) (hfirst hpipe)
    rw [List.append_nil]
    rfl
  | runs hpipe =>
    refine Obeys.of_programs _ _ rfl nofun rfl (List.append_assoc _ _ _) (fun hno => absurd ?_ hno) (hfirst hpipe)
    exact List.mem_append_right _ List.mem_cons_self

/-! ## Lines without operators -/

theorem argsOf_of_no_operator (h : ∀ t ∈ ts, ¬IsOperator t) : argsOf ts = some ts ∧ redirectionsOf ts = [] := by
  induction ts with
  | nil => exact ⟨rfl, rfl⟩
  | cons t ts ih =>
    obtain ⟨hargs, hredirs⟩ := ih fun u hu => h u (List.mem_cons_of_mem _ hu)
    have ht : redirection t = none := by
      cases ht : redirection t with
      | none => rfl
      | some op => exact absurd (.inr (by rw [ht]; rfl)) (h t List.mem_cons_self)
    rw [argsOf_plain ht, redirectionsOf_plain ht, hargs]
    exact ⟨rfl, hredirs⟩

/-- A built-in in a line without operators obeys them all. -/
theorem obeys_of_no_operator (h : ∀ t ∈ ts, ¬IsOperator t) (hran : RanBuiltin ts s s') : Obeys ts s s' := by
  have hp : ascii "|" ∉ ts := fun hmem => h _ hmem (.inl rfl)
  obtain ⟨hargs, hredirs⟩ := argsOf_of_no_operator h
  have hout : outputOf ts s = s.fds STDOUT := by
    rw [outputOf_of_not_mem hp, hredirs]
    rfl
  obtain ⟨outs, houts, hfds⟩ := hran.out
  refine ⟨⟨_, hran.ran, fun args hmem => ?_⟩, ⟨outs, houts, fun o ho => (hfds o ho).trans hout.symm⟩, [], [], ?_, fun _ => rfl, nofun⟩
  · cases List.mem_singleton.mp hmem
    rw [firstCommand_of_not_mem hp, hargs]
  · rw [List.append_nil, List.append_nil]
    exact hran.execs

end BuiltinsAux

open BuiltinsAux

/-- For a program, with standard input and output open, the shell obeys the operators of the line. -/
theorem program_obeys (a : Argv) (name : Bytes) (args : List Bytes) (h : Holds a (name :: args)) (hlen : (name :: args).length ≤ 63)
    (hname : name ∉ builtins) (s : Process) (hstd : StdOpen s.fds) :
    wp (dispatch a (name :: args).length) (fun _ s' => Obeys (name :: args) s s') (fun _ => False) s := by
  rw [dispatch_launch h hname]
  generalize name :: args = ts at h hlen
  refine wp_mono (launch_wp h hlen) (fun _ s' hend => ?_) fun _ he => he
  rcases hend with ⟨hp, hend⟩ | ⟨-, -, -, rfl⟩ | ⟨hl, rfl, -, hleft, -, hend⟩
  · exact Obeys.of_single h hp hstd hend
  · exact Obeys.of_no_program rfl nofun rfl rfl
  · obtain ⟨hbuiltins, hprints, hprograms⟩ := Obeys.of_pipe (s := s.nextJunk.nextJunk) hleft hl hstd hend
    exact ⟨hbuiltins, hprints, hprograms⟩

/-- For every line of `echo`, `pwd` or `help`: the shell obeys the operators of the line, whatever its state, if and only if there
are none. -/
theorem builtin_obeys_iff (name : Bytes) (args : List Bytes) (hname : name ∈ [ascii "echo", ascii "pwd", ascii "help"]) :
    (∀ (a : Argv) (s : Process), Holds a (name :: args) →
        wp (dispatch a (name :: args).length) (fun _ s' => Obeys (name :: args) s s') (fun _ => False) s) ↔
      ∀ t ∈ name :: args, ¬IsOperator t := by
  have hnames : ∀ name ∈ [ascii "echo", ascii "pwd", ascii "help"], name ∈ builtins ∧ name ≠ ascii "exit" := by decide +kernel
  obtain ⟨hbuiltin, hexit⟩ := hnames name hname
  have hran : ∀ {a : Argv} {s : Process}, Holds a (name :: args) →
      wp (dispatch a (name :: args).length) (fun _ s' => RanBuiltin (name :: args) s s') (fun _ => False) s := fun h =>
    wp_mono (dispatch_builtin h hbuiltin) (fun _ _ hs' => hs'.2) fun _ he => hexit he.2.1
  constructor
  · intro h t ht hop
    have hholds : Holds ((name :: args).map some ++ [none]) (name :: args) := ⟨[], rfl⟩
    obtain ⟨_, s', -, hobeys, hs'⟩ := exists_of_wp (wp_and (h _ (calm terminal 16 []) hholds) (hran hholds))
    obtain ⟨evs, hevs, hargs⟩ := hobeys.builtins
    -- the built-in has got all the tokens
    have hall : argsOf (firstCommand (name :: args)) = some (name :: args) := by
      refine hargs _ ?_
      rw [← List.append_cancel_left (hs'.ran.symm.trans hevs)]
      exact List.mem_singleton_self _
    obtain ⟨hmem, hnone⟩ := mem_of_mem_args hall ht
    rcases hop with rfl | hop
    · exact pipe_not_mem_firstCommand _ hmem
    · rw [hnone] at hop
      cases hop
  · exact fun h a s hholds => wp_mono (hran hholds) (fun _ _ hs' => obeys_of_no_operator h hs') fun _ he => he

/-- A line without an operator, and one with a redirection. -/
theorem builtin_obeys_of_lines :
    (∀ (a : Argv) (s : Process), Holds a [ascii "echo", ascii "hi"] →
        wp (dispatch a 2) (fun _ s' => Obeys [ascii "echo", ascii "hi"] s s') (fun _ => False) s) ∧
      ¬∀ (a : Argv) (s : Process), Holds a [ascii "echo", ascii "hi", ascii ">", ascii "f"] →
        wp (dispatch a 4) (fun _ s' => Obeys [ascii "echo", ascii "hi", ascii ">", ascii "f"] s s') (fun _ => False) s := by
  constructor
  · exact (builtin_obeys_iff (ascii "echo") [ascii "hi"] (by decide +kernel)).mpr (by decide +kernel)
  · intro h
    have hnone := (builtin_obeys_iff (ascii "echo") [ascii "hi", ascii ">", ascii "f"] (by decide +kernel)).mp h
    exact hnone (ascii ">") (by decide +kernel) (by decide +kernel)

/-- The line `echo hi > f` prints `hi > f` on the standard output of the shell; no file is opened, and no pipe is made for
`echo hi | wc`. -/
theorem builtin_prints_operators :
    wp (mainTurn (List.replicate 64 none))
        (fun _ s' => s'.out.map Prod.fst = List.replicate 7 (some (.inherited 1)) ∧
          (s'.out.map Prod.snd).flatten = PROMPT ++ ascii "hi > f\n" ∧ s'.opens = [])
        (fun _ => False) (calm terminal 16 (ascii "echo hi > f\n")) ∧
      wp (mainTurn (List.replicate 64 none))
        (fun _ s' => (s'.out.map Prod.snd).flatten = PROMPT ++ ascii "hi | wc\n" ∧ s'.pipes = 0) (fun _ => False)
        (calm terminal 16 (ascii "echo hi | wc\n")) := by
  decide +kernel

end OsLab.Shell
