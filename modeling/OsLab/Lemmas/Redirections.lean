import OsLab.CommandLine

/-!
# apply_redirections on a list of tokens

An array that holds the tokens `ts` has them in front of a null pointer (`Holds`). On such an array the loop of `apply_redirections` does
what the recursion over the list does, with the three calls `open`, `dup2` and `close` for each redirection (`applyRedirections_same`). When
the descriptors that it redirects are open, these calls come to the redirection itself (`redirected_same`).
-/

namespace OsLab.Shell

open Function (update update_self update_of_ne)
open Cmd
open Posix

/-- The array holds these tokens, and a null pointer behind them. -/
def Holds (a : Argv) (ts : List Bytes) : Prop := ∃ rest, a = ts.map some ++ none :: rest

/-- The descriptors of a shell that was started from a terminal. -/
def terminal : Fds
  | 0 => some (.inherited 0)
  | 1 => some (.inherited 1)
  | 2 => some (.inherited 2)
  | _ => none

/-- The shell with these descriptors, before anything has happened, in a system in which every call succeeds and the
input cannot be moved. -/
def calm (fds : Fds) (limit : Nat) (stdin : Bytes) : Process where
  fds := fds
  limit := limit
  answers _ _ := none
  kids _ _ _ := none
  junk _ _ := none
  input := ⟨stdin, 0, none, fun _ => 0, fun _ => 0, 0⟩
  out := []
  err := []
  cwd := ascii "/"
  home := none
  resolve _ path := path
  strerror _ := []
  pipes := 0
  forked := 0
  waited := []
  opens := []
  execs := []
  ran := []

/-- The process after an `open` that has failed and been reported. -/
def Process.refused (s : Process) (path : Path) (mode : OpenMode) (e : Nat) : Process :=
  { s.popped .open with
    opens := s.opens ++ [(path, mode, some e)]
    err := s.err ++ (path ++ ascii ": " ++ s.strerror e ++ [NL]) }

/-- The process after an `open` that has succeeded, with these descriptors in the end. -/
def Process.opened (s : Process) (path : Path) (mode : OpenMode) (fds : Fds) : Process :=
  { s.popped .open with fds := fds, opens := s.opens ++ [(path, mode, none)] }

/-- Standard input and standard output are open. -/
def StdOpen (fds : Fds) : Prop := (fds STDIN).isSome ∧ (fds STDOUT).isSome

namespace ShellAux

variable {a a' : Argv} {ts : List Bytes} {t f : Bytes} {s : Process} {i n : Nat} {p : Option Bytes}

/-! ## Arrays -/

/-- A load inside the array. -/
theorem loadPtr_eq (h : a[i]? = some p) : loadPtr a i = pure p := by
  unfold loadPtr
  rw [h]

/-- A load of a string. -/
theorem load_eq (h : a[i]? = some (some t)) : load a i = pure t := by
  unfold load
  rw [loadPtr_eq h, pure_bind]

theorem store_eq (h : i < a.length) : store a i p = pure (a.set i p) := if_pos h

/-- A store behind the first `i` elements. -/
theorem store_append {x : Option Bytes} {u v : Argv} (h : u.length = i) : store (u ++ x :: v) i p = pure (u ++ p :: v) := by
  rw [store_eq (by rw [List.length_append, List.length_cons]; omega), ← h, List.set_append_right _ _ (Nat.le_refl _), Nat.sub_self]
  rfl

theorem getElem?_append_cons {x : Option Bytes} {u v : Argv} (h : u.length = i) : (u ++ x :: v)[i]? = some x := by
  rw [← h, List.getElem?_append_right (Nat.le_refl _), Nat.sub_self]
  rfl

end ShellAux

section

open ShellAux

variable {a : Argv} {ts : List Bytes} {i : Nat}

/-- The array has the tokens in their places. -/
theorem Holds.getElem? (h : Holds a ts) (hi : i < ts.length) : a[i]? = some (some ts[i]) := by
  obtain ⟨rest, rfl⟩ := h
  rw [List.getElem?_append_left (by rwa [List.length_map]), List.getElem?_map, List.getElem?_eq_getElem hi]
  rfl

theorem Holds.getElem?_of {t : Bytes} (h : Holds a ts) (hi : ts[i]? = some t) : a[i]? = some (some t) := by
  obtain ⟨hlt, rfl⟩ := List.getElem?_eq_some_iff.mp hi
  exact h.getElem? hlt

theorem Holds.load (h : Holds a ts) (hi : i < ts.length) : load a i = pure ts[i] := load_eq (h.getElem? hi)

/-- What it holds are the tokens. -/
theorem Holds.held (h : Holds a ts) : held a ts.length = ts := by
  obtain ⟨rest, rfl⟩ := h
  unfold Shell.held
  rw [List.take_append_of_le_length (by rw [List.length_map]), List.take_of_length_le (by rw [List.length_map]), List.filterMap_map]
  exact List.filterMap_some

end

namespace ShellAux

variable {a a' : Argv} {ts : List Bytes} {t f : Bytes} {s : Process} {i n : Nat}

/-- Induction along the tokens of a command: a token that is kept, an operator with its file, or an operator at the end. -/
@[elab_as_elim] theorem command_induction {P : List Bytes → Prop} (nil : P [])
    (plain : ∀ t ts, redirection t = none → P ts → P (t :: ts)) (missing : ∀ t, (redirection t).isSome → P [t])
    (operator : ∀ t f ts d mode, redirection t = some (d, mode) → P ts → P (t :: f :: ts)) (ts : List Bytes) : P ts := by
  induction hm : ts.length using Nat.strong_induction_on generalizing ts with
  | _ m ih =>
  cases ts with
  | nil => exact nil
  | cons t ts =>
    rw [List.length_cons] at hm
    cases ht : redirection t with
    | none => exact plain t ts ht (ih ts.length (by omega) ts rfl)
    | some op =>
      cases ts with
      | nil => exact missing t (by rw [ht]; rfl)
      | cons f ts =>
        rw [List.length_cons] at hm
        exact operator t f ts op.1 op.2 ht (ih ts.length (by omega) ts rfl)

/-! ## One redirection -/

section

variable {e fd d : Nat} {path : Path} {mode : OpenMode}

/-- The descriptor that is taken is a free one. -/
theorem lowest_spec {fds : Fds} {limit : Nat} (h : lowest fds limit = some fd) : fds fd = none := by
  have hnone := List.find?_some h
  exact Option.isNone_iff_eq_none.mp hnone

/-- The first free descriptor, below any limit that leaves it in. -/
theorem lowest_succ {fds : Fds} (h : fds d = none) (hbelow : ∀ k < d, (fds k).isSome) : lowest fds (d + 1) = some d := by
  unfold lowest
  rw [List.find?_range_eq_some]
  exact ⟨by rw [h]; rfl, List.mem_range.mpr (Nat.lt_succ_self d), fun k hk => by simpa using hbelow k hk⟩

theorem openOutcome_spec (h : s.openOutcome = .ok fd) : s.fds fd = none := by
  unfold Process.openOutcome at h
  split at h
  · cases h
  · cases h
  · rename_i hlow
    cases h
    exact lowest_spec hlow

/-- Without an error the file goes to the lowest free descriptor. -/
theorem openOutcome_of_lowest (h : ∀ n, s.answers .open n = none) (hfd : lowest s.fds s.limit = some fd) : s.openOutcome = .ok fd := by
  unfold Process.openOutcome
  rw [h 0, hfd]

theorem openFile_error (h : s.openOutcome = .error e) :
    openFile path mode s = .ok (.error e, { s.popped .open with opens := s.opens ++ [(path, mode, some e)] }) := by
  unfold openFile
  rw [bind_of_ok (show (get : Act Process) s = .ok (s, s) from rfl)]
  dsimp only
  rw [bind_of_ok (show ask .open s = .ok (s.answers .open 0, s.popped .open) from rfl), h]
  rfl

theorem openFile_ok (h : s.openOutcome = .ok fd) :
    openFile path mode s = .ok (.ok fd, { s.popped .open with
      fds := update s.fds fd (some (.file path mode))
      opens := s.opens ++ [(path, mode, none)] }) := by
  unfold openFile
  rw [bind_of_ok (show (get : Act Process) s = .ok (s, s) from rfl)]
  dsimp only
  rw [bind_of_ok (show ask .open s = .ok (s.answers .open 0, s.popped .open) from rfl), h]
  rfl

theorem dup2_ok {x : Handle} (h : s.fds fd = some x) : dup2 fd d s = .ok ((), { s with fds := update s.fds d (some x) }) := by
  have hrun : ∀ g : Process → Process, (modify g : Act Unit) s = .ok ((), g s) := fun _ => rfl
  unfold dup2
  rw [hrun, h]

/-- A file that cannot be opened ends the child. -/
theorem redirectTo_error (h : s.openOutcome = .error e) :
    redirectTo d path mode s = .error (.exited 1, s.refused path mode e) := by
  unfold redirectTo
  rw [bind_of_ok (openFile_error h)]
  rfl

/-- Otherwise the file is at `d`, and its own descriptor is closed again. -/
theorem redirectTo_ok (h : s.openOutcome = .ok fd) :
    redirectTo d path mode s = .ok ((), s.opened path mode (update (update (update s.fds fd
      (some (.file path mode))) d (some (.file path mode))) fd none)) := by
  unfold redirectTo
  rw [bind_of_ok (openFile_ok h)]
  exact bind_of_ok (dup2_ok (update_self ..))

/-- The same end in the abstract model. -/
theorem perform_error (h : s.openOutcome = .error e) : perform d path mode s = .error (.exited 1, s.refused path mode e) := by
  unfold perform
  rw [bind_of_ok (show (get : Act Process) s = .ok (s, s) from rfl), bind_of_ok (openFile_error h)]
  rfl

/-- There the file is put at `d` directly. -/
theorem perform_ok (h : s.openOutcome = .ok fd) :
    perform d path mode s = .ok ((), s.opened path mode (update s.fds d (some (.file path mode)))) := by
  unfold perform
  rw [bind_of_ok (show (get : Act Process) s = .ok (s, s) from rfl), bind_of_ok (openFile_ok h)]
  rfl

/-- With the descriptor in use, `open` does not return it, and the three calls come to a redirection. -/
theorem redirectTo_eq_perform (hd : (s.fds d).isSome) : redirectTo d path mode s = perform d path mode s := by
  cases h : s.openOutcome with
  | error e => rw [redirectTo_error h, perform_error h]
  | ok fd =>
    have hfree := openOutcome_spec h
    have hne : fd ≠ d := fun heq => by simp [← heq, hfree] at hd
    have hback : update s.fds fd none = s.fds := Function.update_eq_self_iff.mpr hfree.symm
    rw [redirectTo_ok h, perform_ok h, Function.update_comm hne.symm, Function.update_idem, hback]

end

/-! ## The loop of the redirections -/

/-- The operators for standard output, and the one for standard input. -/
theorem of_redirection_some {op : Nat × OpenMode} (h : redirection t = some op) :
    (t = ascii ">" ∨ t = ascii ">>") ∧ op = (STDOUT, if t = ascii ">>" then .append else .truncate) ∨
      t = ascii "<" ∧ op = (STDIN, .read) := by
  unfold redirection at h
  by_cases hto : t = ascii ">"
  · subst hto
    cases h
    exact .inl ⟨.inl rfl, rfl⟩
  rw [if_neg hto] at h
  by_cases happend : t = ascii ">>"
  · rw [if_pos happend] at h
    cases h
    exact .inl ⟨.inr happend, by rw [if_pos happend]⟩
  rw [if_neg happend] at h
  by_cases hfrom : t = ascii "<"
  · rw [if_pos hfrom] at h
    cases h
    exact .inr ⟨hfrom, rfl⟩
  · rw [if_neg hfrom] at h
    cases h

theorem of_redirection_none (h : redirection t = none) : ¬(t = ascii ">" ∨ t = ascii ">>") ∧ t ≠ ascii "<" := by
  refine ⟨?_, fun heq => ?_⟩
  · rintro (rfl | rfl)
    · cases h
    · cases h
  · subst heq
    cases h

section

variable {u v mid : Argv} {x y : Option Bytes} {rm target : Nat} {mode : OpenMode} {act : Nat → Path → OpenMode → Act Unit}

/-- The tokens behind the pair move down by two places. -/
theorem shiftDown_eq (hu : u.length = rm) :
    ∃ x' y', shiftDown mid.length rm (u ++ x :: y :: (mid ++ v)) = pure (u ++ mid ++ x' :: y' :: v) := by
  induction mid generalizing u x y rm with
  | nil => exact ⟨x, y, by rw [List.append_nil]; rfl⟩
  | cons m mid ih =>
    have hload : loadPtr (u ++ x :: y :: (m :: mid ++ v)) (rm + 2) = pure m := by
      refine loadPtr_eq ?_
      have hget := getElem?_append_cons (x := m) (u := u ++ [x, y]) (v := mid ++ v) (i := rm + 2) (by simp [hu])
      simpa using hget
    obtain ⟨x', y', hrest⟩ := ih (x := y) (y := m) (show (u ++ [m]).length = rm + 1 by simp [hu])
    refine ⟨x', y', ?_⟩
    rw [List.length_cons, shiftDown, hload, pure_bind, store_append hu, pure_bind]
    simpa using hrest

/-- The pair is gone, with a null pointer behind the rest. -/
theorem removePair_eq (hu : u.length = i) (hn : n = i + 2 + mid.length) :
    ∃ y', removePair (u ++ x :: y :: (mid ++ v)) n i = pure (u ++ mid ++ none :: y' :: v) := by
  obtain ⟨x', y', hshift⟩ : ∃ x' y', shiftDown mid.length i (u ++ x :: y :: (mid ++ v)) = pure (u ++ mid ++ x' :: y' :: v) :=
    shiftDown_eq hu
  refine ⟨y', ?_⟩
  unfold removePair
  rw [show n - (i + 2) = mid.length by omega, hshift, pure_bind, store_append (by rw [List.length_append]; omega)]

/-- The loop ends behind the last token. -/
theorem redirTurn_end (h : n ≤ i) : redirTurn ⟨a, n, i⟩ = pure (.done (a, n)) := if_neg (Nat.not_lt.mpr h)

/-- Other tokens are passed over. -/
theorem redirTurn_plain (hi : i < n) (ha : a[i]? = some (some t)) (ht : redirection t = none) :
    redirTurn ⟨a, n, i⟩ = pure (.again ⟨a, n, i + 1⟩) := by
  obtain ⟨hout, hin⟩ := of_redirection_none ht
  unfold redirTurn
  rw [if_pos hi, load_eq ha, pure_bind, if_neg hout, if_neg hin]

/-- An operator without a file name is an error. -/
theorem redirTurn_missing (hi : n = i + 1) (ha : a[i]? = some (some t)) (ht : (redirection t).isSome) :
    redirTurn ⟨a, n, i⟩ = (do
      say (ascii "myshell: syntax error near '" ++ t ++ ascii "'\n")
      exit 1) := by
  obtain ⟨op, hop⟩ := Option.isSome_iff_exists.mp ht
  have hlast : i + 1 ≥ n := by omega
  unfold redirTurn
  rw [if_pos (show i < n by omega), load_eq ha, pure_bind]
  rcases of_redirection_some hop with ⟨hout, -⟩ | ⟨rfl, -⟩
  · rw [if_pos hout, if_pos hlast]
  · rw [if_neg (by decide), if_pos rfl, if_pos hlast]
    rfl

/-- An operator is carried out, and the loop stays where it is. -/
theorem redirTurn_operator (hi : i + 1 < n) (ha : a[i]? = some (some t)) (hf : a[i + 1]? = some (some f))
    (ht : redirection t = some (target, mode)) (hrm : removePair a n i = pure a') :
    redirTurn ⟨a, n, i⟩ = (do
      redirectTo target f mode
      pure (.again ⟨a', n - 2, i⟩)) := by
  have hmore : ¬i + 1 ≥ n := by omega
  unfold redirTurn
  rw [if_pos (show i < n by omega), load_eq ha, pure_bind]
  rcases of_redirection_some ht with ⟨hout, heq⟩ | ⟨rfl, heq⟩
  · cases heq
    rw [if_pos hout, if_neg hmore, load_eq hf, pure_bind, hrm]
    rfl
  · cases heq
    rw [if_neg (by decide), if_pos rfl, if_neg hmore, load_eq hf, pure_bind, hrm]
    rfl

/-- The array holds the tokens that have been kept, and the number of them has been stored. -/
def Kept (len : Nat) (kept : List Bytes) (r : Argv × Nat) (ks : List Bytes) : Prop :=
  Holds r.1 (kept ++ ks) ∧ r.2 = (kept ++ ks).length ∧ r.1.length = len

variable {rest : Argv} {kept : List Bytes} {fuel len : Nat} {out : End × Process}

/-- Without tokens left there is nothing to do. -/
theorem redirLoop_nil (hlen : len = kept.length + 1 + rest.length) :
    Cmd.Same (Kept len kept) (Cmd.loop out redirTurn (fuel + 1) ⟨kept.map some ++ none :: rest, kept.length, kept.length⟩)
      (redirected redirectTo []) s := by
  rw [Cmd.loop_done (redirTurn_end (Nat.le_refl _))]
  refine same_pure ⟨⟨rest, by rw [List.append_nil]⟩, by rw [List.append_nil], ?_⟩
  simp only [List.length_append, List.length_map, List.length_cons]
  omega

/-- The token that the loop has come to. -/
theorem getElem?_token (kept : List Bytes) (t : Bytes) (ts : List Bytes) (rest : Argv) :
    ((kept ++ t :: ts).map some ++ none :: rest)[kept.length]? = some (some t) := by
  rw [List.map_append, List.map_cons, List.append_assoc, List.cons_append]
  exact getElem?_append_cons (List.length_map _)

theorem redirected_plain (ht : redirection t = none) : redirected act (t :: ts) = redirected act ts >>= fun ks => pure (t :: ks) := by
  cases ts with
  | nil =>
    rw [redirected.eq_2, ht, redirected.eq_1, pure_bind]
  | cons f ts =>
    rw [redirected, ht]

theorem redirected_missing (ht : (redirection t).isSome) :
    redirected act [t] = (do
      say (ascii "myshell: syntax error near '" ++ t ++ ascii "'\n")
      exit 1) := by
  obtain ⟨op, hop⟩ := Option.isSome_iff_exists.mp ht
  rw [redirected, hop]

theorem redirected_operator (ht : redirection t = some (target, mode)) :
    redirected act (t :: f :: ts) = act target f mode >>= fun _ => redirected act ts := by
  rw [redirected, ht]

/-- From any turn on, the loop does what the recursion does on the tokens that are left. -/
theorem redirLoop_same (hfuel : ts.length < fuel) (hlen : len = (kept ++ ts).length + 1 + rest.length) :
    Cmd.Same (Kept len kept) (Cmd.loop out redirTurn fuel ⟨(kept ++ ts).map some ++ none :: rest, (kept ++ ts).length, kept.length⟩)
      (redirected redirectTo ts) s := by
  induction ts using command_induction generalizing kept rest fuel s with
  | nil =>
    obtain ⟨fuel, rfl⟩ : ∃ k, fuel = k + 1 := ⟨fuel - 1, by omega⟩
    rw [List.append_nil] at hlen ⊢
    exact redirLoop_nil hlen
  | plain t ts ht ih =>
    -- the token is kept, and the index moves on
    obtain ⟨fuel, rfl⟩ : ∃ k, fuel = k + 1 := ⟨fuel - 1, by omega⟩
    rw [List.length_cons] at hfuel
    rw [Cmd.loop_again (redirTurn_plain (by simp) (getElem?_token kept t ts rest) ht), redirected_plain ht, ← bind_pure (Cmd.loop _ _ _ _)]
    have hrest := @ih s rest (kept ++ [t]) fuel (by omega) (by simpa using hlen)
    rw [show (kept ++ [t]).length = kept.length + 1 by simp, List.append_assoc] at hrest
    refine same_bind hrest fun r ks s' hr => same_pure ?_
    unfold Kept at hr ⊢
    rwa [List.append_assoc] at hr
  | missing t ht =>
    obtain ⟨fuel, rfl⟩ : ∃ k, fuel = k + 1 := ⟨fuel - 1, by omega⟩
    have hturn := redirTurn_missing (n := (kept ++ [t]).length) (by simp) (getElem?_token kept t [] rest) ht
    refine .inr ⟨(.exited 1, { s with err := s.err ++ (ascii "myshell: syntax error near '" ++ t ++ ascii "'\n") }), ?_, ?_⟩
    · rw [Cmd.loop, hturn]
      exact bind_of_error rfl
    · rw [redirected_missing ht]
      rfl
  | operator t f ts d mode ht ih =>
    -- the operator and its file are taken out, and the index stays
    obtain ⟨fuel, rfl⟩ : ∃ k, fuel = k + 1 := ⟨fuel - 1, by omega⟩
    rw [List.length_cons, List.length_cons] at hfuel
    have hgetf : ((kept ++ t :: f :: ts).map some ++ none :: rest)[kept.length + 1]? = some (some f) := by simp
    have harr : (kept ++ t :: f :: ts).map some ++ none :: rest = kept.map some ++ some t :: some f :: (ts.map some ++ none :: rest) := by
      simp
    obtain ⟨y', hrm⟩ : ∃ y', removePair ((kept ++ t :: f :: ts).map some ++ none :: rest) (kept ++ t :: f :: ts).length kept.length =
        pure (kept.map some ++ ts.map some ++ none :: y' :: none :: rest) := by
      rw [harr]
      exact removePair_eq (List.length_map _) (by simp only [List.length_append, List.length_cons, List.length_map]; omega)
    have hn : (kept ++ t :: f :: ts).length - 2 = (kept ++ ts).length := by
      simp only [List.length_append, List.length_cons]
      omega
    rw [Cmd.loop, redirTurn_operator (by simp) (getElem?_token kept t (f :: ts) rest) hgetf ht hrm, redirected_operator ht, bind_assoc]
    refine same_bind (same_refl _ _) fun _ _ s' _ => ?_
    have hrest := @ih s' (y' :: none :: rest) kept fuel (by omega)
      (by rw [hlen]; simp only [List.length_append, List.length_cons]; omega)
    rw [pure_bind, hn]
    rw [List.map_append] at hrest
    exact hrest

/-- `apply_redirections` on an array that holds the tokens. -/
theorem applyRedirections_same (rest : Argv) (ts : List Bytes) (s : Process) :
    Cmd.Same (Kept (ts.length + 1 + rest.length) []) (applyRedirections (ts.map some ++ none :: rest) ts.length)
      (redirected redirectTo ts) s := by
  unfold applyRedirections
  exact @redirLoop_same ts s rest [] (ts.length + 1) _ _ (Nat.lt_succ_self _) rfl

end

/-! ## What the recursion does -/

section

variable {s' : Process} {ks : List Bytes} {d target : Nat} {path : Path} {mode : OpenMode} {fds : Fds}
    {act : Nat → Path → OpenMode → Act Unit}

/-- The descriptors that are redirected are open. -/
theorem target_isSome (h : StdOpen fds) (ht : redirection t = some (d, mode)) : (fds d).isSome := by
  rcases of_redirection_some ht with ⟨-, heq⟩ | ⟨-, heq⟩
  · cases heq
    exact h.2
  · cases heq
    exact h.1

/-- Another file there leaves the standard descriptors open. -/
theorem stdOpen_update (h : StdOpen fds) (x : Handle) : StdOpen (update fds d (some x)) := by
  unfold StdOpen
  constructor
  · by_cases hd : STDIN = d
    · rw [hd, update_self]
      rfl
    · rw [update_of_ne hd]
      exact h.1
  · by_cases hd : STDOUT = d
    · rw [hd, update_self]
      rfl
    · rw [update_of_ne hd]
      exact h.2

theorem stdOpen_terminal : StdOpen terminal := ⟨rfl, rfl⟩

/-- So does the close of another descriptor. -/
theorem stdOpen_close (h : StdOpen fds) (hin : STDIN ≠ d) (hout : STDOUT ≠ d) : StdOpen (update fds d none) := by
  unfold StdOpen
  rw [update_of_ne hin, update_of_ne hout]
  exact h

/-- A redirection that has been performed. -/
theorem perform_run (h : perform d path mode s = .ok ((), s')) : s'.fds = update s.fds d (some (.file path mode)) := by
  cases ho : s.openOutcome with
  | error e =>
    rw [perform_error ho] at h
    cases h
  | ok fd =>
    rw [perform_ok ho] at h
    cases h
    rfl

/-- Redirections are carried out from the left. -/
theorem redirect_cons (d : Nat) (x : Handle) (rs : List (Nat × Handle)) :
    redirect ((d, x) :: rs) fds = redirect rs (update fds d (some x)) := by
  funext k
  unfold redirect
  rw [List.reverse_cons, List.find?_append]
  cases hf : rs.reverse.find? fun r => r.1 == k with
  | some r => rfl
  | none =>
    by_cases hk : d = k
    · subst hk
      simp
    · simp [hk, update_of_ne (Ne.symm hk)]

theorem argsOf_plain (ht : redirection t = none) : argsOf (t :: ts) = (argsOf ts).map (t :: ·) := by
  cases ts <;> simp [argsOf, ht]

theorem argsOf_missing (ht : (redirection t).isSome) : argsOf [t] = none := by
  rw [argsOf, if_pos ht]

theorem argsOf_operator (ht : (redirection t).isSome) : argsOf (t :: f :: ts) = argsOf ts := by
  rw [argsOf, if_pos ht]

/-- The arguments of a command are tokens of it, and none is a redirection operator. -/
theorem mem_of_mem_args {ks : List Bytes} (h : argsOf ts = some ks) (ht : t ∈ ks) : t ∈ ts ∧ redirection t = none := by
  induction ts using command_induction generalizing ks with
  | nil =>
    cases h
    cases ht
  | plain u us hu ih =>
    rw [argsOf_plain hu] at h
    obtain ⟨ks', hks', rfl⟩ := Option.map_eq_some_iff.mp h
    rcases List.mem_cons.mp ht with rfl | ht
    · exact ⟨List.mem_cons_self, hu⟩
    · obtain ⟨hmem, hnone⟩ := ih hks' ht
      exact ⟨List.mem_cons_of_mem _ hmem, hnone⟩
  | missing u hu =>
    rw [argsOf_missing hu] at h
    cases h
  | operator u f us d mode hu ih =>
    rw [argsOf_operator (by rw [hu]; rfl)] at h
    obtain ⟨hmem, hnone⟩ := ih h ht
    exact ⟨List.mem_cons_of_mem _ (List.mem_cons_of_mem _ hmem), hnone⟩

theorem redirectionsOf_plain (ht : redirection t = none) : redirectionsOf (t :: ts) = redirectionsOf ts := by
  cases ts <;> simp [redirectionsOf, ht]

theorem redirectionsOf_operator (ht : redirection t = some (target, mode)) :
    redirectionsOf (t :: f :: ts) = (target, .file f mode) :: redirectionsOf ts := by
  rw [redirectionsOf, ht]

/-- What each redirection keeps is kept by all of them, and the tokens that are left are the arguments. -/
theorem redirected_wp {I : Process → Prop} {E : End × Process → Prop}
    (hact : ∀ t d path mode s, redirection t = some (d, mode) → I s → wp (act d path mode) (fun _ => I) E s)
    (hmissing : argsOf ts = none → ∀ t s, I s →
      E (.exited 1, { s with err := s.err ++ (ascii "myshell: syntax error near '" ++ t ++ ascii "'\n") }))
    (h : I s) : wp (redirected act ts) (fun ks s' => argsOf ts = some ks ∧ I s') E s := by
  induction ts using command_induction generalizing s with
  | nil => exact ⟨rfl, h⟩
  | plain t ts ht ih =>
    rw [redirected_plain ht, argsOf_plain ht]
    rw [argsOf_plain ht] at hmissing
    refine wp_call (ih (fun hnone => hmissing (by rw [hnone]; rfl)) h) fun ks s' hks => ?_
    exact ⟨by rw [hks.1]; rfl, hks.2⟩
  | missing t ht =>
    rw [redirected_missing ht]
    exact hmissing (argsOf_missing ht) t s h
  | operator t f ts d mode ht ih =>
    have hsome : (redirection t).isSome := by rw [ht]; rfl
    rw [argsOf_operator hsome] at hmissing ⊢
    rw [redirected_operator ht]
    exact wp_call (hact t d f mode s ht h) fun _ s' hs' => ih hmissing hs'

/-- The descriptors after the redirections. -/
theorem redirected_fds (hrun : redirected perform ts s = .ok (ks, s')) : s'.fds = redirect (redirectionsOf ts) s.fds := by
  induction ts using command_induction generalizing s ks with
  | nil =>
    cases hrun
    rfl
  | plain t ts ht ih =>
    rw [redirected_plain ht] at hrun
    rw [redirectionsOf_plain ht]
    cases hrest : redirected perform ts s with
    | error e =>
      rw [bind_of_error hrest] at hrun
      cases hrun
    | ok r =>
      rw [bind_of_ok hrest] at hrun
      cases hrun
      exact ih hrest
  | missing t ht =>
    rw [redirected_missing ht] at hrun
    cases hrun
  | operator t f ts d mode ht ih =>
    rw [redirected_operator ht] at hrun
    rw [redirectionsOf_operator ht, redirect_cons]
    cases hact : perform d f mode s with
    | error e =>
      rw [bind_of_error hact] at hrun
      cases hrun
    | ok r =>
      rw [bind_of_ok hact] at hrun
      rw [← perform_run hact]
      exact ih hrun

/-- With standard input and output open, the three calls for each redirection come to the redirections. -/
theorem redirected_same (h : StdOpen s.fds) : Cmd.Same Eq (redirected redirectTo ts) (redirected perform ts) s := by
  induction ts using command_induction generalizing s with
  | nil => exact same_refl _ _
  | plain t ts ht ih =>
    rw [redirected_plain ht, redirected_plain ht]
    exact same_bind (ih h) fun ks _ _ hks => by rw [hks]; exact same_refl _ _
  | missing t ht =>
    rw [redirected_missing ht, redirected_missing ht]
    exact same_refl _ _
  | operator t f ts d mode ht ih =>
    rw [redirected_operator ht, redirected_operator ht]
    refine same_bind_of_eq (redirectTo_eq_perform (target_isSome h ht)) fun _ s' hrun => ih ?_
    rw [perform_run hrun]
    exact stdOpen_update h _

end

end ShellAux

end OsLab.Shell
