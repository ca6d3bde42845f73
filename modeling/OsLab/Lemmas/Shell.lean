import OsLab.Lemmas.Redirections
import Mathlib.Data.List.TakeWhile

/-!
# The functions of the shell on lists of tokens

What the calls of the shell come to, and what its functions do on arrays that hold tokens: none of them leaves its array.
-/

namespace OsLab.Shell

open Function (update update_self update_of_ne)
open Cmd
open Posix

/-- The process after a `pipe` that has succeeded. -/
def Process.piped (s : Process) (r w : Nat) : Process :=
  { s.popped .pipe with
    fds := update (update s.fds r (some (.pipeRead s.pipes))) w (some (.pipeWrite s.pipes))
    pipes := s.pipes + 1 }

/-- What a child that runs this code has come to in the end. -/
def Process.childEnd (s : Process) (code : Act Unit) : Process := finalState (code (s.popped .fork).child)

/-- The standard input when a child that runs this code has ended. -/
def Process.inputAfter (s : Process) (code : Act Unit) : Input :=
  if (s.childEnd code).fds STDIN = s.fds STDIN then s.input.after s.forked (code (s.popped .fork).child) else s.input

/-- The process after a `fork` that has succeeded, with the child that runs this code. -/
def Process.spawned (s : Process) (code : Act Unit) : Process :=
  { s.popped .fork with
    input := s.inputAfter code
    forked := s.forked + 1
    err := s.err ++ (s.childEnd code).err
    opens := s.opens ++ (s.childEnd code).opens
    execs := s.execs ++ (s.childEnd code).execs }

/-- The process with a report of `perror`. -/
def Process.complained (s : Process) (what : Bytes) (e : Nat) : Process :=
  { s with err := s.err ++ (what ++ ascii ": " ++ s.strerror e ++ [NL]) }

/-- The process with what it does with a line on record. -/
def Process.recorded (s : Process) (ev : Event) : Process := { s with ran := s.ran ++ [ev] }

/-- What `launch_single` comes to. -/
inductive SingleEnd (a : Argv) (n : Nat) (s : Process) : Process → Prop
  | forkFails {e : Nat} (h : s.answers .fork 0 = some e) :
    SingleEnd a n s (((s.recorded (.single (held a n))).popped .fork).complained (ascii "fork") e)
  | runs (h : s.answers .fork 0 = none) :
    SingleEnd a n s { (s.recorded (.single (held a n))).spawned (execChild a n) with waited := s.waited ++ [s.forked] }

section

variable (left : Argv) (ln : Nat) (right : Argv) (rn : Nat) (s : Process) (r w : Nat)

/-- The shell in `launch_pipe` when it has made the pipe. -/
def pipeMade : Process := (s.recorded (.pipeline (held left ln) (held right rn))).piped r w

/-- The shell in `launch_pipe` when it has created the left child. -/
def leftMade : Process := (pipeMade left ln right rn s r w).spawned (leftChild r w left ln)

/-- The shell in `launch_pipe` when it has created both children. -/
def bothMade : Process := (leftMade left ln right rn s r w).spawned (rightChild r w right rn)

/-- What `launch_pipe` comes to. -/
inductive PipeEnd : Process → Prop
  | pipeFails {e : Nat} (h : s.pipeOutcome = .error e) :
    PipeEnd (((s.recorded (.pipeline (held left ln) (held right rn))).popped .pipe).complained (ascii "pipe") e)
  | leftFails {r w e : Nat} (hpipe : s.pipeOutcome = .ok (r, w)) (h : s.answers .fork 0 = some e) :
    PipeEnd (((pipeMade left ln right rn s r w).popped .fork).complained (ascii "fork") e)
  | rightFails {r w e : Nat} (hpipe : s.pipeOutcome = .ok (r, w)) (hleft : s.answers .fork 0 = none) (h : s.answers .fork 1 = some e) :
    PipeEnd (((leftMade left ln right rn s r w).popped .fork).complained (ascii "fork") e)
  | runs {r w : Nat} (hpipe : s.pipeOutcome = .ok (r, w)) (hleft : s.answers .fork 0 = none) (hright : s.answers .fork 1 = none) :
    PipeEnd { bothMade left ln right rn s r w with
      fds := update (update (pipeMade left ln right rn s r w).fds r none) w none
      waited := s.waited ++ [s.forked] ++ [s.forked + 1] }

end

/-- What the shell comes to with the tokens of a command that is not a built-in. -/
inductive LaunchEnd (a : Argv) (ts : List Bytes) (s s' : Process) : Prop
  | single (hp : ascii "|" ∉ ts) (h : SingleEnd a ts.length s s')
  | refused {l r : List Bytes} (hl : ascii "|" ∉ l) (hts : ts = l ++ ascii "|" :: r) (hnil : l = [] ∨ r = [])
    (hs' : s' = { s.nextJunk.nextJunk.recorded (.badPipe l r) with err := s.err ++ ascii "myshell: syntax error near '|'\n" })
  | pipe {l r : List Bytes} {left right : Argv} (hl : ascii "|" ∉ l) (hts : ts = l ++ ascii "|" :: r) (hne : ¬(l = [] ∨ r = []))
    (hleft : Holds left l) (hright : Holds right r) (h : PipeEnd left l.length right r.length s.nextJunk.nextJunk s')

/-- Every `open` succeeds: none is refused, and there is a descriptor for it. -/
structure Roomy (s : Process) : Prop where
  opens : ∀ n, s.answers .open n = none
  std : StdOpen s.fds
  free : ∃ k, k < s.limit ∧ s.fds k = none

/-- Something may have been printed on standard output; nothing has been run, and no input read. -/
structure Printed (s s' : Process) : Prop where
  ran : s'.ran = s.ran
  input : s'.input = s.input
  fds : s'.fds = s.fds
  execs : s'.execs = s.execs
  out : ∃ outs, s'.out = s.out ++ outs ∧ ∀ o ∈ outs, o.1 = s.fds STDOUT

theorem Printed.refl (s : Process) : Printed s s := ⟨rfl, rfl, rfl, rfl, [], (List.append_nil _).symm, nofun⟩

/-- Output is added to output. -/
theorem Printed.trans {s s' s'' : Process} (h : Printed s s') (h' : Printed s' s'') : Printed s s'' := by
  obtain ⟨outs, hout, houts⟩ := h.out
  obtain ⟨outs', hout', houts'⟩ := h'.out
  refine ⟨h'.ran.trans h.ran, h'.input.trans h.input, h'.fds.trans h.fds, h'.execs.trans h.execs, outs ++ outs', ?_, fun o ho => ?_⟩
  · rw [hout', hout, List.append_assoc]
  · rcases List.mem_append.mp ho with ho | ho
    · exact houts o ho
    · rw [← h.fds]
      exact houts' o ho

/-- A built-in has been run with these arguments. -/
def RanBuiltin (args : List Bytes) (s s' : Process) : Prop := Printed { s with ran := s.ran ++ [.builtin args] } s'

/-- The next array, with what is in it. -/
def Process.array (s : Process) : Argv := (List.range MAX_TOKENS).map (s.junk 0)

namespace ShellAux

variable {a : Argv} {ts : List Bytes} {t : Bytes} {s : Process} {i k n : Nat} {l : List Bytes}

/-! ## Pipes and children -/

section

variable {Q : Unit → Process → Prop} {E : End × Process → Prop}

theorem wp_record (e : Event) : wp (record e) Q E s ↔ Q () { s with ran := s.ran ++ [e] } := Iff.rfl

theorem wp_say (bs : Bytes) : wp (say bs) Q E s ↔ Q () { s with err := s.err ++ bs } := Iff.rfl

theorem wp_print (bs : Bytes) : wp (print bs) Q E s ↔ Q () { s with out := s.out ++ [(s.fds STDOUT, bs)] } := Iff.rfl

theorem wp_ask {Q : Option Nat → Process → Prop} (c : Call) : wp (ask c) Q E s ↔ Q (s.answers c 0) (s.popped c) := Iff.rfl

end

section

variable {r w : Nat} {Q : Except Nat (Nat × Nat) → Process → Prop} {Q' : Except Nat Nat → Process → Prop} {E : End × Process → Prop}
  {code : Act Unit}

/-- What `pipe` comes to, by its outcome. -/
theorem wp_pipe : wp pipe Q E s ↔ (∀ e, s.pipeOutcome = .error e → Q (.error e) (s.popped .pipe)) ∧
    ∀ r w, s.pipeOutcome = .ok (r, w) → Q (.ok (r, w)) (s.piped r w) := by
  unfold pipe
  rw [wp_bind, wp_get]
  dsimp only
  rw [wp_bind, wp_ask]
  cases h : s.pipeOutcome with
  | error e =>
    refine ⟨fun hq => ⟨fun e' he => ?_, fun _ _ he => by cases he⟩, fun hq => hq.1 e rfl⟩
    cases he
    exact hq
  | ok rw =>
    refine ⟨fun hq => ⟨(fun _ he => by cases he), fun r w hrw => ?_⟩, fun hq => hq.2 rw.1 rw.2 rfl⟩
    cases hrw
    exact hq

/-- What `fork` comes to in the parent. -/
theorem wp_fork : wp (fork code) Q' E s ↔ (∀ e, s.answers .fork 0 = some e → Q' (.error e) (s.popped .fork)) ∧
    (s.answers .fork 0 = none → Q' (.ok s.forked) (s.spawned code)) := by
  unfold fork
  rw [wp_bind, wp_ask]
  cases h : s.answers .fork 0 with
  | some e =>
    refine ⟨fun hq => ⟨fun e' he => ?_, fun he => by cases he⟩, fun hq => hq.1 e rfl⟩
    cases he
    exact hq
  | none => exact ⟨fun hq => ⟨(fun _ he => by cases he), fun _ => hq⟩, fun hq => hq.2 rfl⟩

/-- The two ends get different free descriptors. -/
theorem pipeOutcome_spec (h : s.pipeOutcome = .ok (r, w)) : s.fds r = none ∧ s.fds w = none ∧ r ≠ w := by
  unfold Process.pipeOutcome at h
  split at h
  · cases h
  · split at h
    · cases h
    · rename_i r' hr
      split at h
      · cases h
      · rename_i w' hw
        cases h
        have hfree := lowest_spec hw
        have hne : r ≠ w := fun heq => by
          rw [← heq, update_self] at hfree
          cases hfree
        rw [update_of_ne (Ne.symm hne)] at hfree
        exact ⟨lowest_spec hr, hfree, hne⟩

/-- Whatever the calls answer, `launch_single` returns. -/
theorem launchSingle_wp (a : Argv) (n : Nat) (s : Process) :
    wp (launchSingle a n) (fun _ s' => SingleEnd a n s s') (fun _ => False) s := by
  unfold launchSingle
  rw [wp_bind, wp_record, wp_bind, wp_fork]
  exact ⟨fun e he => .forkFails he, fun h => .runs h⟩

/-- So does `launch_pipe`. -/
theorem launchPipe_wp (left : Argv) (ln : Nat) (right : Argv) (rn : Nat) (s : Process) :
    wp (launchPipe left ln right rn) (fun _ s' => PipeEnd left ln right rn s s') (fun _ => False) s := by
  unfold launchPipe
  rw [wp_bind, wp_record, wp_bind, wp_pipe]
  refine ⟨fun e he => .pipeFails he, fun r w hpipe => ?_⟩
  rw [wp_bind, wp_fork]
  refine ⟨fun e he => .leftFails hpipe he, fun hleft => ?_⟩
  rw [wp_bind, wp_fork]
  exact ⟨fun e he => .rightFails hpipe hleft he, fun hright => .runs hpipe hleft hright⟩

theorem piped_fds_write (s : Process) (r w : Nat) : (s.piped r w).fds w = some (.pipeWrite s.pipes) := update_self _ _ _

theorem piped_fds_read (h : r ≠ w) : (s.piped r w).fds r = some (.pipeRead s.pipes) := by
  show update (update s.fds r _) w _ r = _
  rw [update_of_ne h, update_self]

/-- The right child finds the end of the pipe that it reads from. -/
theorem leftMade_fds_read {left right : Argv} {ln rn : Nat} (h : r ≠ w) :
    (leftMade left ln right rn s r w).fds r = some (.pipeRead s.pipes) :=
  piped_fds_read (s := s.recorded (.pipeline (held left ln) (held right rn))) h

end

/-! ## Tokens -/

/-- The tokens that `strtok` is yet to return. -/
def pending : Option (Bytes × Bytes) → List Bytes
  | none => []
  | some (tok, rest) => tok :: tokensOf rest

/-- A blank at the beginning is no part of a token. -/
theorem tokensOf_tail {bs : Bytes} (h : ∀ b ∈ bs.head?, isDelim b = true) : tokensOf bs.tail = tokensOf bs := by
  cases bs with
  | nil => rfl
  | cons b bs => exact (words_cons_sep (h b rfl)).symm

/-- `strtok` goes through the tokens. -/
theorem pending_strtok (line : Bytes) : pending (strtok line) = tokensOf line := by
  have hskip : tokensOf (line.dropWhile isDelim) = tokensOf line := by
    conv_rhs => rw [← List.takeWhile_append_dropWhile (p := isDelim) (l := line)]
    exact (words_seps_append fun b hb => List.mem_takeWhile_imp hb).symm
  rw [← hskip]
  unfold strtok
  cases hd : line.dropWhile isDelim with
  | nil => rfl
  | cons b bs =>
    have hb : isDelim b = false := head?_dropWhile_eq_false line b (by rw [hd]; rfl)
    have hstop : ∀ c ∈ ((b :: bs).dropWhile fun b => !isDelim b).head?, isDelim c = true := fun c hc => by
      simpa using head?_dropWhile_eq_false (b :: bs) c hc
    conv_rhs => rw [← List.takeWhile_append_dropWhile (p := fun b => !isDelim b) (l := b :: bs)]
    show _ :: tokensOf _ = words isDelim _
    rw [words_run_append (by simp [hb]) (fun c hc => by simpa using List.mem_takeWhile_imp hc) hstop, tokensOf_tail hstop]
    rfl

/-- The tokens that there is room for are stored behind those that are there, and a null pointer behind them. -/
theorem tokenizeFrom_eq {room count : Nat} {u junk : Argv} (st : Option (Bytes × Bytes)) (hu : u.length = count)
    (hroom : room < junk.length) :
    ∃ v, tokenizeFrom room count (u ++ junk) st =
        pure (u ++ (((pending st).take room).map some ++ none :: v), count + ((pending st).take room).length) ∧
      ((pending st).take room).length + 1 + v.length = junk.length := by
  induction room generalizing count u junk st with
  | zero =>
    obtain ⟨x, v, rfl⟩ := List.exists_cons_of_length_pos hroom
    refine ⟨v, ?_, by simp; omega⟩
    rw [tokenizeFrom, store_append hu]
    · simp
    · simp
  | succ room ih =>
    obtain ⟨x, v, rfl⟩ := List.exists_cons_of_length_pos (Nat.lt_of_le_of_lt (Nat.zero_le _) hroom)
    cases st with
    | none =>
      refine ⟨v, ?_, by simp [pending]; omega⟩
      rw [tokenizeFrom, store_append hu]
      · simp [pending]
      · simp
    | some tr =>
      obtain ⟨tok, rest⟩ := tr
      rw [List.length_cons] at hroom
      obtain ⟨v', hrun, hlen⟩ := ih (strtok rest) (show (u ++ [some tok]).length = count + 1 by simp [hu]) (Nat.lt_of_succ_lt_succ hroom)
      rw [pending_strtok] at hrun hlen
      rw [show pending (some (tok, rest)) = tok :: tokensOf rest from rfl, List.take_succ_cons, List.length_cons]
      refine ⟨v', ?_, by rw [List.length_cons]; omega⟩
      rw [tokenizeFrom, store_append hu, pure_bind]
      rw [List.append_assoc, List.append_assoc, List.singleton_append] at hrun
      rw [hrun, Nat.add_right_comm, Nat.add_assoc]
      rfl

/-- `tokenize` stores as many of the tokens as there is room for. -/
theorem tokenize_eq (line : Bytes) {tokens : Argv} (h : tokens.length = MAX_TOKENS) :
    ∃ a, tokenize line tokens = pure (a, ((tokensOf line).take 63).length) ∧ Holds a ((tokensOf line).take 63) ∧ a.length = MAX_TOKENS := by
  obtain ⟨v, hrun, hlen⟩ := tokenizeFrom_eq (strtok line) (show ([] : Argv).length = 0 from rfl) (show 63 < tokens.length by rw [h]; decide)
  rw [pending_strtok, List.nil_append, List.nil_append, Nat.zero_add] at hrun
  rw [pending_strtok] at hlen
  refine ⟨_, hrun, ⟨v, rfl⟩, ?_⟩
  rw [List.length_append, List.length_map, List.length_cons, ← h, ← hlen]
  omega

/-- `find_pipe` from some token on. -/
theorem findPipe_from (us ts : List Bytes) (rest : Argv) :
    findPipe ((us ++ ts).map some ++ rest) ts.length us.length =
      pure (if ascii "|" ∈ ts then some (us.length + (firstCommand ts).length) else none) := by
  induction ts generalizing us with
  | nil => rfl
  | cons t ts ih =>
    have hload : load ((us ++ t :: ts).map some ++ rest) us.length = pure t := load_eq (by simp)
    rw [List.length_cons, findPipe, hload, pure_bind]
    by_cases ht : t = ascii "|"
    · rw [if_pos ht, if_pos (by rw [ht]; exact List.mem_cons_self), firstCommand, List.takeWhile_cons_of_neg (by simpa using ht)]
      rfl
    · have hrest := ih (us ++ [t])
      rw [List.append_assoc, List.singleton_append, List.length_append, List.length_singleton] at hrest
      rw [if_neg ht, hrest, firstCommand, firstCommand, List.takeWhile_cons_of_pos (by simpa using ht), List.length_cons]
      have hmem : (ascii "|" ∈ t :: ts) = (ascii "|" ∈ ts) := by simp [Ne.symm ht]
      simp only [hmem, Nat.add_assoc, Nat.add_comm 1]

/-- The first bar, if there is one. -/
theorem findPipe_eq (h : Holds a ts) :
    findPipe a ts.length 0 = pure (if ascii "|" ∈ ts then some (firstCommand ts).length else none) := by
  obtain ⟨rest, rfl⟩ := h
  have hfrom := findPipe_from [] ts (none :: rest)
  rw [List.nil_append, List.length_nil, Nat.zero_add] at hfrom
  exact hfrom

/-- The loops that copy tokens, when some of them have been copied. -/
theorem copyTokens_from {src u junk : Argv} {xs : List Bytes} {count : Nat}
    (hsrc : ∀ j (hj : j < xs.length), src[i + j]? = some (some xs[j]))
    (hu : u.length = count) (hjunk : xs.length ≤ junk.length) :
    copyTokens src xs.length i count (u ++ junk) = pure (u ++ (xs.map some ++ junk.drop xs.length), count + xs.length) := by
  induction xs generalizing i u junk count with
  | nil => simp [copyTokens]
  | cons x xs ih =>
    obtain ⟨y, junk, rfl⟩ := List.exists_cons_of_length_pos (Nat.lt_of_lt_of_le (Nat.succ_pos _) hjunk)
    have hload : loadPtr src i = pure (some x) := loadPtr_eq (hsrc 0 (Nat.succ_pos _))
    have hrest := @ih (i + 1) (u ++ [some x]) junk (count + 1)
      (fun j hj => by rw [Nat.add_assoc, Nat.add_comm 1]; exact hsrc (j + 1) (Nat.succ_lt_succ hj)) (by simp [hu])
      (Nat.le_of_succ_le_succ hjunk)
    rw [List.length_cons, copyTokens, hload, pure_bind, store_append hu, pure_bind]
    rw [List.append_assoc, List.append_assoc, List.singleton_append] at hrest
    rw [hrest, Nat.add_right_comm, Nat.add_assoc]
    rfl

/-- The copied tokens are at the beginning of the other array. -/
theorem copyTokens_eq {src : Argv} (xs : List Bytes) (junk : Argv) (hsrc : ∀ j (hj : j < xs.length), src[i + j]? = some (some xs[j]))
    (hjunk : xs.length ≤ junk.length) :
    copyTokens src xs.length i 0 junk = pure (xs.map some ++ junk.drop xs.length, xs.length) := by
  have hfrom := copyTokens_from hsrc (show ([] : Argv).length = 0 from rfl) hjunk
  rwa [List.nil_append, List.nil_append, Nat.zero_add] at hfrom

/-! ## Commands that are not built-ins -/

theorem array_length (s : Process) : s.array.length = 64 := by
  unfold Process.array
  rw [List.length_map, List.length_range]
  rfl

/-- The first bar cuts the tokens in two. -/
theorem firstCommand_append (h : ascii "|" ∈ ts) : firstCommand ts ++ ascii "|" :: afterPipe ts = ts := by
  unfold firstCommand afterPipe
  have hne : ts.dropWhile (fun t => t ≠ ascii "|") ≠ [] := by
    intro hnil
    have := List.dropWhile_eq_nil_iff.mp hnil _ h
    simp at this
  obtain ⟨t, rest, hd⟩ := List.exists_cons_of_ne_nil hne
  have ht : t = ascii "|" := by
    have := head?_dropWhile_eq_false ts t (by rw [hd]; rfl)
    simpa using this
  conv_rhs => rw [← List.takeWhile_append_dropWhile (p := fun t => decide (t ≠ ascii "|")) (l := ts)]
  rw [hd, ht]
  rfl

theorem pipe_not_mem_firstCommand (ts : List Bytes) : ascii "|" ∉ firstCommand ts := fun h => by
  simpa using List.mem_takeWhile_imp h

/-- An array filled from the front holds what it was filled with. -/
theorem store_none (xs : List Bytes) (junk : Argv) (h : xs.length < junk.length) :
    ∃ b, store (xs.map some ++ junk.drop xs.length) xs.length none = pure b ∧ Holds b xs := by
  obtain ⟨x, v, hv⟩ := List.exists_cons_of_ne_nil (List.ne_nil_of_length_pos (show 0 < (junk.drop xs.length).length by
    rw [List.length_drop]; omega))
  rw [hv, store_append (List.length_map _)]
  exact ⟨_, rfl, v, rfl⟩

/-- Without a bar there is one command. -/
theorem launch_single (h : Holds a ts) (hp : ascii "|" ∉ ts) : launch a ts.length = launchSingle a ts.length := by
  unfold launch
  rw [findPipe_eq h, if_neg hp, pure_bind]

theorem firstCommand_of_append {r : List Bytes} (hl : ascii "|" ∉ l) : firstCommand (l ++ ascii "|" :: r) = l := by
  refine takeWhile_append_stop (fun t ht => ?_) fun t ht => ?_
  · simpa using fun h : t = ascii "|" => hl (h ▸ ht)
  · obtain rfl : ascii "|" = t := by simpa using ht
    simp

theorem afterPipe_of_append {r : List Bytes} (hl : ascii "|" ∉ l) : afterPipe (l ++ ascii "|" :: r) = r := by
  have happend := firstCommand_append (show ascii "|" ∈ l ++ ascii "|" :: r from List.mem_append_right _ List.mem_cons_self)
  rw [firstCommand_of_append hl] at happend
  exact List.tail_eq_of_cons_eq (List.append_cancel_left happend)

/-- A line without a pipe, or its parts before and behind the first one. -/
theorem pipe_cases (ts : List Bytes) : ascii "|" ∉ ts ∨ ∃ l r, ascii "|" ∉ l ∧ ts = l ++ ascii "|" :: r := by
  by_cases hp : ascii "|" ∈ ts
  · exact .inr ⟨_, _, pipe_not_mem_firstCommand ts, (firstCommand_append hp).symm⟩
  · exact .inl hp

/-- A line with a pipe: the arrays `left` and `right` get the tokens before and behind the first one. -/
theorem launch_pipe {r : List Bytes} (h : Holds a (l ++ ascii "|" :: r)) (hl : ascii "|" ∉ l) (hlen : (l ++ ascii "|" :: r).length ≤ 63)
    (s : Process) :
    ∃ left right, Holds left l ∧ Holds right r ∧
      launch a (l ++ ascii "|" :: r).length s =
        (if l = [] ∨ r = [] then do
            record (.badPipe l r)
            say (ascii "myshell: syntax error near '|'\n")
          else launchPipe left l.length right r.length) s.nextJunk.nextJunk := by
  have hfind : findPipe a (l ++ ascii "|" :: r).length 0 = pure (some l.length) := by
    rw [findPipe_eq h, if_pos (List.mem_append_right _ List.mem_cons_self), firstCommand_of_append hl]
  have hsub : (l ++ ascii "|" :: r).length - (l.length + 1) = r.length := by
    rw [List.length_append, List.length_cons]
    omega
  rw [List.length_append, List.length_cons] at hlen
  -- the two loops copy the tokens into the new arrays
  have hcopyl : copyTokens a l.length 0 0 s.array = _ := copyTokens_eq l s.array
    (fun j hj => h.getElem?_of (by rw [Nat.zero_add, List.getElem?_append_left hj, List.getElem?_eq_getElem hj]))
    (by rw [array_length]; omega)
  have hcopyr : copyTokens a r.length (l.length + 1) 0 s.nextJunk.array = _ := copyTokens_eq r s.nextJunk.array
    (fun j hj => h.getElem?_of (by
      rw [List.getElem?_append_right (by omega), show l.length + 1 + j - l.length = j + 1 by omega, List.getElem?_cons_succ,
        List.getElem?_eq_getElem hj]))
    (by rw [array_length]; omega)
  obtain ⟨left, hleft, hholdl⟩ := store_none l s.array (by rw [array_length]; omega)
  obtain ⟨right, hright, hholdr⟩ := store_none r s.nextJunk.array (by rw [array_length]; omega)
  refine ⟨left, right, hholdl, hholdr, ?_⟩
  have hnew : ∀ s : Process, newArray s = .ok (s.array, s.nextJunk) := fun _ => rfl
  unfold launch
  rw [hfind, pure_bind]
  dsimp only
  rw [bind_of_ok (hnew s), hcopyl, pure_bind, bind_of_ok (hnew s.nextJunk), hsub, hcopyr, pure_bind, hleft, pure_bind, hright, pure_bind,
    hholdl.held, hholdr.held]
  simp only [List.length_eq_zero_iff]

/-- In all, `launch` returns. -/
theorem launch_wp (h : Holds a ts) (hlen : ts.length ≤ 63) :
    wp (launch a ts.length) (fun _ s' => LaunchEnd a ts s s') (fun _ => False) s := by
  rcases pipe_cases ts with hp | ⟨l, r, hl, hts⟩
  · rw [launch_single h hp]
    exact wp_mono (launchSingle_wp a ts.length s) (fun _ _ hend => .single hp hend) fun _ he => he
  · subst hts
    obtain ⟨left, right, hleft, hright, hrun⟩ := launch_pipe h hl hlen s
    rw [wp_of_run hrun]
    by_cases hnil : l = [] ∨ r = []
    · rw [if_pos hnil, wp_bind, wp_record, wp_say]
      exact .refused hl rfl hnil rfl
    · rw [if_neg hnil]
      exact wp_mono (launchPipe_wp left l.length right r.length _) (fun _ _ hend => .pipe hl rfl hnil hleft hright hend) fun _ he => he

/-! ## Children -/

section

variable {ks : List Bytes} {r w : Nat}

/-- The state at the end, whether the code returns or exits. -/
theorem finalState_of_wp {α : Type} {x : Act α} {P : Process → Prop} (h : wp x (fun _ => P) (fun r => P r.2) s) : P (finalState (x s)) := by
  unfold wp at h
  unfold finalState
  split <;> rename_i hx <;> simpa only [hx] using h

/-- A redirection runs nothing, and it complains if it fails. -/
theorem redirectTo_wp (d : Nat) (path : Path) (mode : OpenMode) :
    wp (redirectTo d path mode) (fun _ s' => s'.execs = s.execs ∧ s'.err = s.err)
      (fun r => r.2.execs = s.execs ∧ s.err.length < r.2.err.length) s := by
  unfold wp
  cases h : s.openOutcome with
  | error e =>
    rw [redirectTo_error h]
    refine ⟨rfl, ?_⟩
    simp only [Process.refused, List.length_append, List.length_singleton]
    omega
  | ok fd =>
    rw [redirectTo_ok h]
    exact ⟨rfl, rfl⟩

/-- The redirections of a child: no program is run, and a failure is reported. -/
theorem redirected_quiet (ts : List Bytes) :
    wp (redirected redirectTo ts) (fun ks s' => argsOf ts = some ks ∧ s'.execs = s.execs ∧ s'.err = s.err)
      (fun r => r.2.execs = s.execs ∧ s.err.length < r.2.err.length) s := by
  refine redirected_wp (I := fun s' => s'.execs = s.execs ∧ s'.err = s.err) (fun t d path mode s' _ hs' => ?_) (fun _ t s' hs' => ?_)
    ⟨rfl, rfl⟩
  · obtain ⟨hexecs, herr⟩ := hs'
    rw [← hexecs, ← herr]
    exact redirectTo_wp d path mode
  · obtain ⟨hexecs, herr⟩ := hs'
    refine ⟨hexecs, ?_⟩
    simp only [herr, List.length_append]
    have hmsg : 0 < (ascii "myshell: syntax error near '").length := by decide
    omega

/-- `execvp` on an array that holds the arguments: the call is made. -/
theorem execvp_wp (h : Holds a ks) :
    wp (execvp a) (fun _ s' => s'.execs = s.execs ++ [⟨ks.head?, ks, s.fds⟩] ∧ ks ≠ [])
      (fun r => r.2.execs = s.execs ++ [⟨ks.head?, ks, s.fds⟩]) s := by
  obtain ⟨rest, rfl⟩ := h
  have hargs : ((ks.map some ++ none :: rest).takeWhile Option.isSome).filterMap id = ks := by
    rw [takeWhile_append_stop (fun x hx => ?_) fun x hx => ?_, List.filterMap_map]
    · exact List.filterMap_some
    · obtain ⟨y, -, rfl⟩ := List.mem_map.mp hx
      rfl
    · obtain rfl : none = x := by simpa using hx
      rfl
  have hload : loadPtr (ks.map some ++ none :: rest) 0 = pure ks.head? := loadPtr_eq (by cases ks <;> rfl)
  unfold execvp
  rw [hload, pure_bind, wp_bind, wp_modify, hargs]
  cases ks with
  | nil => rfl
  | cons k ks =>
    show wp (ask .execvp >>= _) _ _ _
    rw [wp_bind, wp_ask]
    dsimp only
    cases s.answers .execvp 0 with
    | none => rfl
    | some e => exact ⟨rfl, fun he => by cases he⟩

/-- A child whose redirections fail runs nothing, and reports the failure. -/
theorem execChild_failed (h : Holds a ts) {e : End × Process} (hrec : redirected redirectTo ts s = .error e) :
    (finalState (execChild a ts.length s)).execs = s.execs ∧ s.err.length < (finalState (execChild a ts.length s)).err.length := by
  obtain ⟨rest, rfl⟩ := h
  have hfailed := wp_error (redirected_quiet ts) hrec
  unfold execChild
  rcases applyRedirections_same rest ts s with ⟨r, ks, s', -, hrec', -⟩ | ⟨e', hloop, hrec'⟩
  · cases hrec.symm.trans hrec'
  · cases hrec.symm.trans hrec'
    rw [bind_of_error hloop]
    exact hfailed

/-- A child whose redirections succeed comes to `execvp` with the arguments of its command. -/
theorem execChild_ran (h : Holds a ts) {s' : Process} (hrec : redirected redirectTo ts s = .ok (ks, s')) :
    argsOf ts = some ks ∧ (finalState (execChild a ts.length s)).execs = s.execs ++ [⟨ks.head?, ks, s'.fds⟩] := by
  obtain ⟨rest, rfl⟩ := h
  obtain ⟨hargs, hexecs, -⟩ := wp_ok (redirected_quiet ts) hrec
  refine ⟨hargs, ?_⟩
  unfold execChild
  rcases applyRedirections_same rest ts s with ⟨r, ks', s'', hloop, hrec', hkept⟩ | ⟨e, -, hrec'⟩
  · cases hrec.symm.trans hrec'
    rw [bind_of_ok hloop]
    refine finalState_of_wp (P := fun t => t.execs = s.execs ++ [⟨ks.head?, ks, s'.fds⟩]) ?_
    have hexec := execvp_wp (s := s') hkept.1
    rw [List.nil_append, hexecs] at hexec
    refine wp_call hexec fun e t ht => ?_
    have hload : load r.1 0 = pure (ks.head ht.2) := by
      rw [hkept.1.load (List.length_pos_iff.mpr ht.2)]
      simp [List.head_eq_getElem]
    rw [hload, pure_bind]
    exact ht.1
  · cases hrec.symm.trans hrec'

/-- A child reports a failure and runs nothing, or comes to `execvp` with the arguments of its command. -/
theorem execChild_end (h : Holds a ts) :
    ((finalState (execChild a ts.length s)).execs = s.execs ∧ s.err.length < (finalState (execChild a ts.length s)).err.length) ∨
      ∃ ks fds, argsOf ts = some ks ∧ (finalState (execChild a ts.length s)).execs = s.execs ++ [⟨ks.head?, ks, fds⟩] := by
  cases hrec : redirected redirectTo ts s with
  | error e => exact .inl (execChild_failed h hrec)
  | ok r =>
    obtain ⟨hargs, hexecs⟩ := execChild_ran h hrec
    exact .inr ⟨r.1, r.2.fds, hargs, hexecs⟩

/-- The child of a pipe puts its end in the place of `d` and closes both ends. -/
theorem pipeChild_eq {drop keep d : Nat} {x : Handle} (hne : keep ≠ drop) (hkeep : s.fds keep = some x) (a : Argv) (n : Nat) :
    pipeChild drop keep d a n s =
      execChild a n { s with fds := update (update (update s.fds drop none) d (some x)) keep none } := by
  have hopen : update s.fds drop none keep = some x := (update_of_ne hne _ _).trans hkeep
  unfold pipeChild
  rw [bind_of_ok (show close drop s = .ok ((), { s with fds := update s.fds drop none }) from rfl),
    bind_of_ok (dup2_ok (x := x) hopen)]
  rfl

end

/-! ## Children whose calls succeed -/

section

variable {ks : List Bytes} {d : Nat} {mode : OpenMode}

/-- With a descriptor to spare one is found. -/
theorem lowest_isSome {fds : Fds} {limit k : Nat} (hk : k < limit) (h : fds k = none) : ∃ fd, lowest fds limit = some fd := by
  have hsome : (lowest fds limit).isSome := List.find?_isSome.mpr ⟨k, List.mem_range.mpr hk, by rw [h]; rfl⟩
  exact Option.isSome_iff_exists.mp hsome

/-- With room, and no errors, a redirection does not fail. -/
theorem redirectTo_roomy (h : Roomy s) (ht : redirection t = some (d, mode)) (path : Path) :
    wp (redirectTo d path mode) (fun _ => Roomy) (fun _ => False) s := by
  obtain ⟨k, hk, hfree⟩ := h.free
  obtain ⟨fd, hfd⟩ := lowest_isSome hk hfree
  have hout := openOutcome_of_lowest h.opens hfd
  have hd := target_isSome h.std ht
  unfold wp
  rw [redirectTo_eq_perform hd, perform_ok hout]
  refine ⟨fun n => h.opens (n + 1), stdOpen_update h.std _, k, hk, ?_⟩
  have hne : k ≠ d := fun heq => by simp [← heq, hfree] at hd
  exact (update_of_ne hne _ _).trans hfree

/-- So all of a command's redirections succeed. -/
theorem redirected_roomy (h : Roomy s) (hargs : argsOf ts = some ks) : ∃ s', redirected redirectTo ts s = .ok (ks, s') := by
  have hwp : wp (redirected redirectTo ts) (fun ks' s' => argsOf ts = some ks' ∧ Roomy s') (fun _ => False) s :=
    redirected_wp (fun _ _ path _ _ ht hs => redirectTo_roomy hs ht path) (fun hnone => by rw [hargs] at hnone; cases hnone) h
  obtain ⟨ks', s', hrun, hks', -⟩ := exists_of_wp hwp
  rw [hargs] at hks'
  cases hks'
  exact ⟨s', hrun⟩

end

/-! ## Built-ins -/

section

variable {s' : Process}

theorem printed_print (bs : Bytes) : Printed s { s with out := s.out ++ [(s.fds STDOUT, bs)] } :=
  ⟨rfl, rfl, rfl, rfl, _, rfl, fun o ho => by rw [List.mem_singleton.mp ho]⟩

/-- A change of other parts of the state. -/
theorem printed_of_eq (hran : s'.ran = s.ran) (hinput : s'.input = s.input) (hfds : s'.fds = s.fds) (hexecs : s'.execs = s.execs)
    (hout : s'.out = s.out) : Printed s s' := ⟨hran, hinput, hfds, hexecs, [], by rw [hout, List.append_nil], nofun⟩

/-- The words of `echo` are only printed. -/
theorem echoArgs_wp (h : Holds a ts) (hi : i + k ≤ ts.length) :
    wp (echoArgs a n k i) (fun _ s' => Printed s s') (fun _ => False) s := by
  induction k generalizing i s with
  | zero => exact Printed.refl s
  | succ k ih =>
    rw [echoArgs, h.load (by omega), pure_bind, wp_bind, wp_print, wp_ite]
    refine ⟨fun _ => ?_, fun _ => ?_⟩
    · rw [wp_bind, wp_print]
      refine wp_mono (ih (by omega)) (fun _ s' hs' => ?_) fun _ he => he
      exact ((printed_print _).trans (printed_print _)).trans hs'
    · exact wp_mono (ih (by omega)) (fun _ s' hs' => (printed_print _).trans hs') fun _ he => he

theorem chdir_wp (path : Path) : wp (chdir path) (fun _ s' => Printed s s') (fun _ => False) s := by
  unfold chdir
  rw [wp_bind, wp_ask]
  cases s.answers .chdir 0 with
  | some e | none => exact printed_of_eq rfl rfl rfl rfl rfl

/-- The argument of `cd` is looked up without a change. -/
theorem cdPath_wp (h : Holds a ts) : wp (cdPath a ts.length) (fun _ s' => s' = s) (fun _ => False) s := by
  unfold cdPath
  rw [wp_ite]
  refine ⟨fun hlen => ?_, fun _ => rfl⟩
  rw [h.load hlen]
  rfl

theorem getcwd_wp (size : Nat) : wp (getcwd size) (fun _ s' => Printed s s') (fun _ => False) s := by
  unfold getcwd
  rw [wp_bind, wp_ask]
  cases s.answers .getcwd 0 with
  | some e => exact printed_of_eq rfl rfl rfl rfl rfl
  | none =>
    show wp (if _ then _ else _ : Act _) _ _ _
    rw [wp_ite]
    exact ⟨fun _ => printed_of_eq rfl rfl rfl rfl rfl, fun _ => printed_of_eq rfl rfl rfl rfl rfl⟩

/-- A command that is not a built-in is left to the rest of the loop. -/
theorem runBuiltin_of_not_mem (h : Holds a (t :: ts)) (ht : t ∉ builtins) : runBuiltin a (t :: ts).length = pure false := by
  have hload : load a 0 = pure t := h.load (Nat.succ_pos _)
  have hpos : (t :: ts).length ≠ 0 := Nat.succ_ne_zero _
  simp only [builtins, List.mem_cons, List.not_mem_nil, or_false, not_or] at ht
  obtain ⟨hexit, hcd, hpwd, hecho, hhelp⟩ := ht
  unfold runBuiltin
  rw [if_neg hpos, hload, pure_bind, if_neg hexit, if_neg hcd, if_neg hpwd, if_neg hecho, if_neg hhelp]

/-- A built-in is run with all the tokens of its line, and `exit` ends the shell. -/
theorem runBuiltin_wp (h : Holds a (t :: ts)) (ht : t ∈ builtins) :
    wp (runBuiltin a (t :: ts).length) (fun b s' => b = true ∧ t ≠ ascii "exit" ∧ RanBuiltin (t :: ts) s s')
      (fun r => r.1 = .exited 0 ∧ t = ascii "exit" ∧ RanBuiltin (t :: ts) s r.2) s := by
  have hload : load a 0 = pure t := h.load (Nat.succ_pos _)
  have hpos : (t :: ts).length ≠ 0 := Nat.succ_ne_zero _
  simp only [builtins, List.mem_cons, List.not_mem_nil, or_false] at ht
  unfold runBuiltin
  rw [if_neg hpos, hload, pure_bind, h.held]
  by_cases hexit : t = ascii "exit"
  · rw [if_pos hexit, wp_bind, wp_record, wp_bind, wp_print]
    exact ⟨rfl, hexit, printed_print _⟩
  rw [if_neg hexit]
  by_cases hcd : t = ascii "cd"
  · rw [if_pos hcd, wp_bind, wp_record]
    refine wp_call_of_returns (cdPath_wp h) fun path s₁ hs₁ => ?_
    refine wp_call_of_returns (chdir_wp path) fun err s₂ hs₂ => ?_
    rw [hs₁] at hs₂
    cases err with
    | some e => exact ⟨rfl, hexit, hs₂.trans (printed_of_eq rfl rfl rfl rfl rfl)⟩
    | none => exact ⟨rfl, hexit, hs₂⟩
  rw [if_neg hcd]
  by_cases hpwd : t = ascii "pwd"
  · rw [if_pos hpwd, wp_bind, wp_record]
    refine wp_call_of_returns (getcwd_wp 1024) fun cwd s₁ hs₁ => ?_
    cases cwd with
    | ok cwd => exact ⟨rfl, hexit, hs₁.trans (printed_print _)⟩
    | error e => exact ⟨rfl, hexit, hs₁.trans (printed_of_eq rfl rfl rfl rfl rfl)⟩
  rw [if_neg hpwd]
  by_cases hecho : t = ascii "echo"
  · rw [if_pos hecho, wp_bind, wp_record]
    refine wp_call_of_returns (echoArgs_wp h (by rw [List.length_cons]; omega)) fun _ s₁ hs₁ => ?_
    exact ⟨rfl, hexit, hs₁.trans (printed_print _)⟩
  rw [if_neg hecho]
  have hhelp : t = ascii "help" := by tauto
  rw [if_pos hhelp, wp_bind, wp_record]
  exact ⟨rfl, hexit, printed_print _⟩

end

/-! ## The loop -/

section

variable {tokens : Argv} {line rest : Bytes} {Q : Cmd.Turn Argv Nat → Process → Prop} {E : End × Process → Prop}

/-- A built-in command runs in the shell itself, and only `exit` ends it. -/
theorem dispatch_builtin (h : Holds a (t :: ts)) (ht : t ∈ builtins) :
    wp (dispatch a (t :: ts).length) (fun _ s' => t ≠ ascii "exit" ∧ RanBuiltin (t :: ts) s s')
      (fun r => r.1 = .exited 0 ∧ t = ascii "exit" ∧ RanBuiltin (t :: ts) s r.2) s := by
  unfold dispatch
  rw [if_neg (show ¬(t :: ts).length = 0 from Nat.succ_ne_zero _)]
  refine wp_call (runBuiltin_wp h ht) fun b s' hs' => ?_
  obtain ⟨rfl, hran⟩ := hs'
  exact hran

/-- Everything else is launched. -/
theorem dispatch_launch (h : Holds a (t :: ts)) (ht : t ∉ builtins) : dispatch a (t :: ts).length = launch a (t :: ts).length := by
  unfold dispatch
  rw [if_neg (show ¬(t :: ts).length = 0 from Nat.succ_ne_zero _), runBuiltin_of_not_mem h ht, pure_bind]
  rfl

/-- At the end of the input the loop ends. -/
theorem mainTurn_eof (h : s.stdin = []) :
    wp (mainTurn tokens) Q E s ↔ Q (.done 0) { s with out := s.out ++ [(s.fds STDOUT, PROMPT)] ++ [(s.fds STDOUT, [NL])] } := by
  have hread : fgets MAX_LINE s.input.left = none := if_pos h
  unfold mainTurn readLine
  rw [wp_bind, wp_print, wp_bind, wp_bind, wp_get]
  dsimp only [Process.stdin]
  rw [hread]
  rfl

/-- A turn of the loop: the tokens of the line, as far as there is room for them, are in the array. -/
theorem mainTurn_line (htokens : tokens.length = MAX_TOKENS) (h : fgets MAX_LINE s.stdin = some (line, rest)) :
    ∃ a, Holds a ((tokensOf (cstr line)).take 63) ∧ a.length = MAX_TOKENS ∧
      (wp (mainTurn tokens) Q E s ↔ wp (dispatch a ((tokensOf (cstr line)).take 63).length) (fun _ => Q (.again a)) E
        { s with out := s.out ++ [(s.fds STDOUT, PROMPT)], input := s.input.took line rest }) := by
  obtain ⟨a, hrun, hholds, hlen⟩ := tokenize_eq (cstr line) htokens
  refine ⟨a, hholds, hlen, ?_⟩
  have hread : fgets MAX_LINE s.input.left = some (line, rest) := h
  unfold mainTurn readLine
  rw [wp_bind, wp_print, wp_bind, wp_bind, wp_get]
  dsimp only [Process.stdin]
  rw [hread]
  dsimp only
  rw [wp_bind, wp_modify, wp_pure]
  dsimp only
  rw [hrun, pure_bind, wp_bind]
  rfl

end

end ShellAux

end OsLab.Shell
