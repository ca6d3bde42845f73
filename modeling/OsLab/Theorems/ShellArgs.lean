import OsLab.Lemmas.Shell
import OsLab.Lemmas.Lines

/-!
# The calls of execvp

The shell looks for empty commands before the redirections are taken out of them, for the first pipe only, and for missing operands in
each child on its own. So `> f` runs `execvp` with no name, `a | b | c` gives the second pipe to `b`, and of `a | b >` the left half is
run. Of the lines that cannot be run, those alone end without an `execvp` in which every command that the shell makes of them lacks an
operand (`execvp_args_iff`); the lines that can be run are run with well-formed arguments.
-/

namespace OsLab.Shell

open Cmd
open Posix ShellAux LinesAux

/-- A call of `execvp` with a name, and with no operator among the arguments. -/
def ExecOk (e : Exec) : Prop := e.file ≠ none ∧ ∀ t ∈ e.args, ¬IsOperator t

/-- What a line may come to: all calls of `execvp` are well-formed, and a line that cannot be run is reported without one. -/
def LineOk (ts : List Bytes) (s s' : Process) : Prop :=
  ∃ es, s'.execs = s.execs ++ es ∧ (∀ e ∈ es, ExecOk e) ∧ (Impossible ts → es = [] ∧ s.err.length < s'.err.length)

/-- Whatever the state of the shell and the outcome of its calls, the turn of the loop that reads this line ends, and as it may. -/
def RunsWell (line : Bytes) : Prop :=
  ∀ (s : Process) (tokens : Argv) (rest : Bytes), tokens.length = MAX_TOKENS → s.stdin = line ++ rest → (∀ b ∈ rest.head?, b = NL) →
    wp (mainTurn tokens) (fun _ s' => LineOk (tokensOf (cstr line)) s s') (fun _ => False) s

/-- The commands that the shell makes of a line: it takes it apart at the first pipe, and refuses one with nothing on a side. -/
def shellCommands (ts : List Bytes) : List (List Bytes) :=
  if ascii "|" ∈ ts then
    if firstCommand ts = [] ∨ afterPipe ts = [] then [] else [firstCommand ts, afterPipe ts]
  else [ts]

namespace ArgsAux

variable {a : Argv} {ts c : List Bytes} {t : Bytes} {s s' s'' : Process} {cs : List (List Bytes)} {line rest : Bytes}

/-! ## Commands and arguments -/

theorem commandsOf_of_not_mem (h : ascii "|" ∉ ts) : commandsOf ts = [ts] :=
  List.splitOnP_eq_singleton fun t ht => by simpa using fun heq : t = ascii "|" => h (heq ▸ ht)

theorem commandsOf_append {l r : List Bytes} (h : ascii "|" ∉ l) : commandsOf (l ++ ascii "|" :: r) = l :: commandsOf r := by
  unfold commandsOf List.splitOn
  rw [List.splitOnP_append_cons _ _ (by simp), List.splitOnP_eq_singleton fun t ht => by
    simpa using fun heq : t = ascii "|" => h (heq ▸ ht)]
  rfl

theorem shellCommands_append {l r : List Bytes} (hl : ascii "|" ∉ l) :
    shellCommands (l ++ ascii "|" :: r) = if l = [] ∨ r = [] then [] else [l, r] := by
  unfold shellCommands
  rw [if_pos (List.mem_append_right _ List.mem_cons_self), firstCommand_of_append hl, afterPipe_of_append hl]

/-- The commands that the shell makes of a line that can be run are those of the line. -/
theorem shellCommands_of_not_impossible (hne : ts ≠ []) (h : ¬Impossible ts) (hc : c ∈ shellCommands ts) :
    c ∈ commandsOf ts ∧ ascii "|" ∉ c := by
  rcases pipe_cases ts with hp | ⟨l, r, hl, rfl⟩
  · unfold shellCommands at hc
    rw [if_neg hp, List.mem_singleton] at hc
    rw [hc, commandsOf_of_not_mem hp]
    exact ⟨List.mem_singleton_self _, hp⟩
  · have hlen : ¬2 < (commandsOf (l ++ ascii "|" :: r)).length := fun hlen => h ⟨hne, .inl hlen⟩
    rw [commandsOf_append hl, List.length_cons] at hlen
    have hr : ascii "|" ∉ r := by
      rcases pipe_cases r with hr | ⟨l', r', hl', rfl⟩
      · exact hr
      · have hpos : 0 < (commandsOf r').length := List.length_pos_iff.mpr (List.splitOnP_ne_nil _ _)
        rw [commandsOf_append hl', List.length_cons] at hlen
        omega
    rw [shellCommands_append hl] at hc
    rw [commandsOf_append hl, commandsOf_of_not_mem hr]
    split at hc
    · cases hc
    · rcases List.mem_pair.mp hc with rfl | rfl
      · exact ⟨List.mem_cons_self, hl⟩
      · exact ⟨List.mem_cons_of_mem _ List.mem_cons_self, hr⟩

/-- The arguments in a line that can be run. -/
theorem execOk_of_not_impossible {ks : List Bytes} (hne : ts ≠ []) (h : ¬Impossible ts) (hc : c ∈ shellCommands ts)
    (hks : argsOf c = some ks)
    (fds : Fds) : ExecOk ⟨ks.head?, ks, fds⟩ := by
  obtain ⟨hmem, hpipe⟩ := shellCommands_of_not_impossible hne h hc
  refine ⟨fun hnil => h ⟨hne, .inr ⟨c, hmem, .inr ?_⟩⟩, fun t ht hop => ?_⟩
  · rw [hks, List.head?_eq_none_iff.mp hnil]
  · obtain ⟨hin, hnone⟩ := mem_of_mem_args hks ht
    rcases hop with rfl | hop
    · exact hpipe hin
    · rw [hnone] at hop
      cases hop

/-! ## What is launched -/

/-- A child has reported a failure and run nothing, or has come to `execvp` with the arguments of its command. -/
def ChildOk (c : List Bytes) (p : Process) : Prop :=
  (p.execs = [] ∧ 0 < p.err.length) ∨ ∃ ks fds, argsOf c = some ks ∧ p.execs = [⟨ks.head?, ks, fds⟩]

/-- The calls of `execvp` are for some of these commands, and there is a report if there are none. -/
def Launched (cs : List (List Bytes)) (s s' : Process) : Prop :=
  ∃ es, s'.execs = s.execs ++ es ∧ (es = [] → s.err.length < s'.err.length) ∧
    ∀ e ∈ es, ∃ c ∈ cs, ∃ ks fds, argsOf c = some ks ∧ e = ⟨ks.head?, ks, fds⟩

theorem Launched.failed (hexecs : s'.execs = s.execs) (herr : s.err.length < s'.err.length) : Launched cs s s' :=
  ⟨[], by rw [hexecs, List.append_nil], fun _ => herr, nofun⟩

theorem Launched.of_eq (h : Launched cs s s') (hexecs : s''.execs = s'.execs) (herr : s'.err.length ≤ s''.err.length) :
    Launched cs s s'' := by
  obtain ⟨es, hes, hnil, hargs⟩ := h
  exact ⟨es, hexecs.trans hes, fun hemp => Nat.lt_of_lt_of_le (hnil hemp) herr, hargs⟩

theorem childOk_execChild (h : Holds a c) (hexecs : s.execs = []) (herr : s.err = []) :
    ChildOk c (finalState (execChild a c.length s)) := by
  have hend := execChild_end (s := s) h
  rwa [hexecs, herr] at hend

theorem childOk_pipeChild {drop keep d : Nat} {x : Handle} (h : Holds a c) (hne : keep ≠ drop) (hkeep : s.fds keep = some x) :
    ChildOk c (s.childEnd (pipeChild drop keep d a c.length)) := by
  unfold Process.childEnd
  rw [pipeChild_eq (s := (s.popped .fork).child) (x := x) hne hkeep]
  exact childOk_execChild h rfl rfl

theorem Launched.child {k : Act Unit} (hc : c ∈ cs) (hp : ChildOk c (s.childEnd k)) : Launched cs s (s.spawned k) := by
  refine ⟨(s.childEnd k).execs, rfl, fun hnil => ?_, fun e he => ?_⟩
  · rcases hp with ⟨-, herr⟩ | ⟨ks, fds, -, hexecs⟩
    · show s.err.length < (s.err ++ (s.childEnd k).err).length
      rw [List.length_append]
      omega
    · rw [hnil] at hexecs
      cases hexecs
  · rcases hp with ⟨hexecs, -⟩ | ⟨ks, fds, hargs, hexecs⟩
    · rw [hexecs] at he
      cases he
    · rw [hexecs, List.mem_singleton] at he
      exact ⟨c, hc, ks, fds, hargs, he⟩

theorem Launched.trans (h : Launched cs s s') (h' : Launched cs s' s'') : Launched cs s s'' := by
  obtain ⟨es, hes, hnil, hargs⟩ := h
  obtain ⟨es', hes', hnil', hargs'⟩ := h'
  refine ⟨es ++ es', by rw [hes', hes, List.append_assoc], fun hemp => ?_, fun e he => ?_⟩
  · obtain ⟨hemp, hemp'⟩ := List.append_eq_nil_iff.mp hemp
    exact Nat.lt_trans (hnil hemp) (hnil' hemp')
  · rcases List.mem_append.mp he with he | he
    · exact hargs e he
    · exact hargs' e he

theorem complained_length (s : Process) (what : Bytes) (e : Nat) : s.err.length < (s.complained what e).err.length := by
  simp only [Process.complained, List.length_append, List.length_singleton]
  omega

theorem Launched.of_single (h : Holds a c) (hend : SingleEnd a c.length s s') : Launched [c] s s' := by
  cases hend with
  | forkFails => exact Launched.failed rfl (complained_length _ _ _)
  | runs =>
    exact Launched.child (s := s.recorded (.single (held a c.length))) (k := execChild a c.length) (List.mem_singleton_self c)
      (childOk_execChild h rfl rfl)

section

variable {left right : Argv} {l r ks : List Bytes}

theorem Launched.of_left {i o rn : Nat} (hl : Holds left l) (hpipe : s.pipeOutcome = .ok (i, o)) :
    Launched [l, r] s (leftMade left l.length right rn s i o) :=
  Launched.child (s := pipeMade left l.length right rn s i o) List.mem_cons_self
    (childOk_pipeChild hl (Ne.symm (pipeOutcome_spec hpipe).2.2) (piped_fds_write _ i o))

theorem Launched.of_pipe (hl : Holds left l) (hr : Holds right r) (hend : PipeEnd left l.length right r.length s s') :
    Launched [l, r] s s' := by
  cases hend with
  | pipeFails | leftFails => exact Launched.failed rfl (complained_length _ _ _)
  | rightFails hpipe => exact (Launched.of_left hl hpipe).trans (Launched.failed rfl (complained_length _ _ _))
  | runs hpipe =>
    have hne := (pipeOutcome_spec hpipe).2.2
    refine ((Launched.of_left hl hpipe).trans (Launched.child (List.mem_cons_of_mem _ List.mem_cons_self) ?_)).of_eq rfl (Nat.le_refl _)
    exact childOk_pipeChild hr hne (leftMade_fds_read hne)

/-- The calls of `execvp` are for the commands that the shell makes of the line. -/
theorem Launched.of_launch (h : Holds a ts) (hend : LaunchEnd a ts s s') : Launched (shellCommands ts) s s' := by
  rcases hend with ⟨hp, hend⟩ | ⟨hl, rfl, hnil, rfl⟩ | ⟨hl, rfl, hne, hleft, hright, hend⟩
  · rw [shellCommands, if_neg hp]
    exact Launched.of_single h hend
  · refine Launched.failed rfl ?_
    show s.err.length < (s.err ++ _).length
    rw [List.length_append]
    exact Nat.lt_add_of_pos_right (by decide)
  · rw [shellCommands_append hl, if_neg hne]
    exact Launched.of_pipe (s := s.nextJunk.nextJunk) hleft hright hend

end

/-! ## In a system in which every call succeeds -/

/-- The shell as it was started from a terminal, with calls that all succeed. -/
structure Unhindered (s : Process) : Prop where
  fds : s.fds = terminal
  limit : s.limit = 16
  answers : ∀ c n, s.answers c n = none
  kids : ∀ k c n, s.kids k c n = none

theorem append_ne_self {α : Type} {xs ys : List α} (h : ys ≠ []) : xs ++ ys ≠ xs := fun heq => h (List.append_right_eq_self.mp heq)

theorem execChild_roomy {ks : List Bytes} (h : Holds a c) (hs : Roomy s) (hks : argsOf c = some ks) :
    (finalState (execChild a c.length s)).execs ≠ s.execs := by
  obtain ⟨s', hrec⟩ := redirected_roomy hs hks
  rw [(execChild_ran h hrec).2]
  simp

theorem pipeOutcome_terminal (hs : Unhindered s) : s.pipeOutcome = .ok (3, 4) := by
  unfold Process.pipeOutcome
  rw [hs.answers, hs.fds, hs.limit]
  rfl

/-- The children of a pipe can open their files: the end that they have copied has become free. -/
theorem pipeChild_roomy {drop keep d : Nat} {x : Handle} {ks : List Bytes} (h : Holds a c) (hne : keep ≠ drop) (hkeep : s.fds keep = some x)
    (hstd : StdOpen s.fds) (hdrop : 2 ≤ drop) (hkeep2 : 2 ≤ keep) (hlimit : keep < s.limit) (hkids : ∀ k c n, s.kids k c n = none)
    (hks : argsOf c = some ks) : (s.childEnd (pipeChild drop keep d a c.length)).execs ≠ [] := by
  unfold Process.childEnd
  rw [pipeChild_eq (s := (s.popped .fork).child) (x := x) hne hkeep]
  refine execChild_roomy h ⟨fun n => hkids _ _ _, ?_, keep, hlimit, Function.update_self _ _ _⟩ hks
  have hstd' : ∀ {fds : Fds} {k : Nat}, 2 ≤ k → StdOpen fds → StdOpen (Function.update fds k none) := fun hk h =>
    stdOpen_close h (by unfold STDIN; omega) (by unfold STDOUT; omega)
  exact hstd' hkeep2 (stdOpen_update (hstd' hdrop hstd) x)

/-- A command whose operators have their operands comes to `execvp`. -/
theorem singleEnd_execs_ne {ks : List Bytes} (hend : SingleEnd a c.length s s') (h : Holds a c) (hs : Unhindered s)
    (hks : argsOf c = some ks) :
    s'.execs ≠ s.execs := by
  cases hend with
  | forkFails hfork => cases (hs.answers _ _).symm.trans hfork
  | runs =>
    refine append_ne_self (execChild_roomy h ⟨fun n => hs.kids _ _ _, ?_, 3, ?_, ?_⟩ hks)
    · show StdOpen s.fds
      rw [hs.fds]
      exact stdOpen_terminal
    · show 3 < s.limit
      rw [hs.limit]
      decide
    · show s.fds 3 = none
      rw [hs.fds]
      rfl

/-- So does each of the two commands beside a pipe. -/
theorem pipeEnd_execs_ne {left right : Argv} {l r ks : List Bytes} (hend : PipeEnd left l.length right r.length s s') (hl : Holds left l)
    (hr : Holds right r) (hs : Unhindered s) (hc : c ∈ [l, r]) (hks : argsOf c = some ks) : s'.execs ≠ s.execs := by
  have hterminal := pipeOutcome_terminal hs
  have hlimit := hs.limit
  cases hend with
  | pipeFails hpipe => cases hterminal.symm.trans hpipe
  | leftFails _ hfork | rightFails _ _ hfork => cases (hs.answers _ _).symm.trans hfork
  | runs hpipe =>
    cases hterminal.symm.trans hpipe
    have hstd : StdOpen (pipeMade left l.length right r.length s 3 4).fds := by
      show StdOpen (Function.update (Function.update s.fds 3 _) 4 _)
      rw [hs.fds]
      exact stdOpen_update (stdOpen_update stdOpen_terminal _) _
    show s.execs ++ ((pipeMade left l.length right r.length s 3 4).childEnd (leftChild 3 4 left l.length)).execs ++
      ((leftMade left l.length right r.length s 3 4).childEnd (rightChild 3 4 right r.length)).execs ≠ s.execs
    rw [List.append_assoc]
    refine append_ne_self fun hnil => ?_
    obtain ⟨hnil, hnil'⟩ := List.append_eq_nil_iff.mp hnil
    rcases List.mem_pair.mp hc with rfl | rfl
    · exact pipeChild_roomy hl (by decide) (piped_fds_write _ 3 4) hstd (by decide) (by decide) (show 4 < s.limit by omega) hs.kids hks hnil
    · exact pipeChild_roomy hr (by decide) (leftMade_fds_read (by decide)) hstd (by decide) (by decide)
        (show 3 < s.limit by omega) hs.kids hks hnil'

/-- If one of its commands has all its operands, the shell calls `execvp` for a line. -/
theorem launchEnd_execs_ne {ks : List Bytes} (hend : LaunchEnd a ts s s') (h : Holds a ts) (hs : Unhindered s) (hc : c ∈ shellCommands ts)
    (hks : argsOf c = some ks) : s'.execs ≠ s.execs := by
  rcases hend with ⟨hp, hend⟩ | ⟨hl, rfl, hnil, -⟩ | ⟨hl, rfl, hne, hleft, hright, hend⟩
  · rw [shellCommands, if_neg hp, List.mem_singleton] at hc
    rw [hc] at hks
    exact singleEnd_execs_ne hend h hs hks
  · rw [shellCommands_append hl, if_pos hnil] at hc
    cases hc
  · rw [shellCommands_append hl, if_neg hne] at hc
    exact pipeEnd_execs_ne (s := s.nextJunk.nextJunk) hend hleft hright ⟨hs.fds, hs.limit, hs.answers, hs.kids⟩ hc hks

/-! ## Lines -/

theorem tokensOf_cstr_newline (line : Bytes) : tokensOf (cstr (line ++ [NL])) = tokensOf (cstr line) := by
  by_cases h : (0 : UInt8) ∈ line
  · rw [cstr_append_of_mem h]
  · have h' : (0 : UInt8) ∉ line ++ [NL] := by simpa using ⟨h, by decide⟩
    rw [cstr_of_not_mem h, cstr_of_not_mem h']
    exact words_append_seps (by simp; decide)

/-- `fgets` reads a line that fits. -/
theorem fgets_line (hnl : NL ∉ line) (hlen : line.length ≤ 1022) (hrest : ∀ b ∈ rest.head?, b = NL) (hne : line ++ rest ≠ []) :
    ∃ got rest', fgets MAX_LINE (line ++ rest) = some (got, rest') ∧ tokensOf (cstr got) = tokensOf (cstr line) := by
  refine ⟨_, _, if_neg hne, ?_⟩
  obtain ⟨m, hm⟩ : ∃ m, MAX_LINE - 1 = line.length + (m + 1) := ⟨1022 - line.length, by unfold MAX_LINE; omega⟩
  rw [hm, takeLine_append hnl]
  cases rest with
  | nil => rw [takeLine, List.append_nil]; intro he; cases he
  | cons b rest =>
    obtain rfl := hrest b rfl
    rw [takeLine, if_pos rfl]
    exact tokensOf_cstr_newline line

/-- The turn of the loop that reads such a line launches its commands. -/
theorem mainTurn_launch {tokens : Argv} {Q : Cmd.Turn Argv Nat → Process → Prop} {E : End × Process → Prop} (hnl : NL ∉ line)
    (hlen : line.length ≤ 1022) (hroom : (tokensOf (cstr line)).length ≤ 63) (hprogram : ∀ t ∈ (tokensOf (cstr line)).head?, t ∉ builtins)
    (hne : tokensOf (cstr line) ≠ []) (htokens : tokens.length = MAX_TOKENS) (hstdin : s.stdin = line ++ rest)
    (hrest : ∀ b ∈ rest.head?, b = NL) :
    ∃ a x, Holds a (tokensOf (cstr line)) ∧ (wp (mainTurn tokens) Q E s ↔
      wp (launch a (tokensOf (cstr line)).length) (fun _ => Q (.again a)) E
        { s with out := s.out ++ [(s.fds STDOUT, PROMPT)], input := x }) := by
  have hsome : line ++ rest ≠ [] := fun hnil => hne (by rw [(List.append_eq_nil_iff.mp hnil).1]; rfl)
  obtain ⟨got, rest', hget, hsame⟩ := fgets_line hnl hlen hrest hsome
  rw [← hstdin] at hget
  obtain ⟨a, hholds, -, hturn⟩ := mainTurn_line (Q := Q) (E := E) htokens hget
  rw [hsame, List.take_of_length_le hroom] at hholds hturn
  refine ⟨a, s.input.took got rest', hholds, hturn.trans ?_⟩
  obtain ⟨t, ts, hts⟩ := List.exists_cons_of_ne_nil hne
  rw [hts] at hholds hprogram ⊢
  rw [dispatch_launch hholds (hprogram t rfl)]

/-- A line without tokens is passed over. -/
theorem mainTurn_blank {tokens : Argv} (hnl : NL ∉ line) (hlen : line.length ≤ 1022) (hnil : tokensOf (cstr line) = [])
    (htokens : tokens.length = MAX_TOKENS) (hstdin : s.stdin = line ++ rest) (hrest : ∀ b ∈ rest.head?, b = NL) :
    wp (mainTurn tokens) (fun _ s' => s'.execs = s.execs) (fun _ => False) s := by
  by_cases hemp : line ++ rest = []
  · rw [mainTurn_eof (hstdin.trans hemp)]
  · obtain ⟨got, rest', hget, hsame⟩ := fgets_line hnl hlen hrest hemp
    rw [← hstdin] at hget
    obtain ⟨a, -, -, hturn⟩ := mainTurn_line (Q := fun _ s' => s'.execs = s.execs) (E := fun _ => False) htokens hget
    rw [hturn, hsame, hnil]
    rfl

end ArgsAux

open ArgsAux

/-- A line of at most 1022 bytes and 63 tokens that is not a built-in: in every state of the shell and for every outcome of its calls, what
`execvp` is called with is well-formed, and the line is reported without a call if it cannot be run, if and only if it can be run or none of
the commands that the shell makes of it has all its operands. -/
theorem execvp_args_iff (line : Bytes) (hnl : NL ∉ line) (hlen : line.length ≤ 1022) (hroom : (tokensOf (cstr line)).length ≤ 63)
    (hprogram : ∀ t ∈ (tokensOf (cstr line)).head?, t ∉ builtins) :
    RunsWell line ↔ (Impossible (tokensOf (cstr line)) → ∀ c ∈ shellCommands (tokensOf (cstr line)), argsOf c = none) := by
  constructor
  · intro h himp c hc
    by_contra hargs
    obtain ⟨ks, hks⟩ := Option.ne_none_iff_exists'.mp hargs
    -- with calls that succeed, the shell comes to `execvp`
    let s := calm terminal 16 (line ++ [NL])
    have hwell := h s (List.replicate 64 none) [NL] rfl rfl (by simp)
    obtain ⟨a, rest', hholds, hturn⟩ := mainTurn_launch (s := s) (Q := fun _ s' => s'.execs ≠ s.execs) (E := fun _ => False) hnl hlen hroom
      hprogram himp.1 (List.length_replicate (n := 64)) rfl (show ∀ b ∈ [NL].head?, b = NL by simp)
    have hran := hturn.mpr (wp_mono (launch_wp hholds hroom)
      (fun _ _ hend => (launchEnd_execs_ne hend hholds ⟨rfl, rfl, fun _ _ => rfl, fun _ _ _ => rfl⟩ hc hks :)) fun _ he => he)
    obtain ⟨_, s', -, ⟨es, hes, -, hnone⟩, hne⟩ := exists_of_wp (wp_and hwell hran)
    rw [(hnone himp).1, List.append_nil] at hes
    exact hne hes
  · intro h s tokens rest htokens hstdin hrest
    by_cases hts : tokensOf (cstr line) = []
    · refine wp_mono (mainTurn_blank hnl hlen hts htokens hstdin hrest) (fun _ s' hs' => ?_) fun _ he => he
      exact ⟨[], by rw [hs', List.append_nil], nofun, fun himp => absurd hts himp.1⟩
    · obtain ⟨a, rest', hholds, hturn⟩ := mainTurn_launch (Q := fun _ s' => LineOk (tokensOf (cstr line)) s s')
        (E := fun _ => False) hnl hlen
        hroom hprogram hts htokens hstdin hrest
      rw [hturn]
      refine wp_mono (launch_wp hholds hroom) (fun _ s' hend => ?_) fun _ he => he
      obtain ⟨es, hes, herr, hargs⟩ := Launched.of_launch hholds hend
      have himp : Impossible (tokensOf (cstr line)) → es = [] := fun himp => List.eq_nil_iff_forall_not_mem.mpr fun e he => by
        obtain ⟨c, hc, ks, fds, hks, -⟩ := hargs e he
        rw [h himp c hc] at hks
        cases hks
      refine ⟨es, hes, fun e he => ?_, fun hi => ⟨himp hi, herr (himp hi)⟩⟩
      obtain ⟨c, hc, ks, fds, hks, rfl⟩ := hargs e he
      exact execOk_of_not_impossible hts (fun hi => absurd he (by simp [himp hi])) hc hks fds

/-- A line that can be run, and one with two pipes. -/
theorem execvp_args_of_lines : RunsWell (ascii "cat < f | wc") ∧ ¬RunsWell (ascii "a | b | c") := by
  constructor
  · refine (execvp_args_iff (ascii "cat < f | wc") (by decide +kernel) (by decide +kernel) (by decide +kernel) (by decide +kernel)).mpr ?_
    exact fun himp => absurd himp (by unfold Impossible; decide +kernel)
  · intro h
    have hnone := (execvp_args_iff (ascii "a | b | c") (by decide +kernel) (by decide +kernel) (by decide +kernel) (by decide +kernel)).mp h
      (by unfold Impossible; decide +kernel) [ascii "a"] (by decide +kernel)
    cases hnone

/-- The line `> f` comes to an `execvp` with no name, and nothing is reported; of `a | b | c` the second program gets the pipe as an
argument. -/
theorem execvp_without_name :
    wp (mainTurn (List.replicate 64 none)) (fun _ s' => s'.execs.map Exec.file = [none] ∧ s'.err = [])
        (fun _ => False) (calm terminal 16 (ascii "> f\n")) ∧
      wp (mainTurn (List.replicate 64 none))
        (fun _ s' => s'.execs.map Exec.args = [[ascii "a"], [ascii "b", ascii "|", ascii "c"]] ∧ s'.err = [])
        (fun _ => False) (calm terminal 16 (ascii "a | b | c\n")) := by
  decide +kernel

end OsLab.Shell
