import OsLab.Lemmas.Shell
import OsLab.Lemmas.Lines

/-!
# One line, one command

The shell reads with a buffer of 1024 bytes and keeps 63 tokens. It acts on the pieces that `fgets` hands over: a line that is longer than
the buffer can become several commands, cut in the middle of a token, and tokens behind the 63rd are dropped. Apart from the lines that
follow an `exit`, the commands are those of the lines if and only if each line that has tokens has at most 63, and has them all in one piece
(`one_line_one_command_iff`). This is said of the runs in which no child moves the offset of the standard input. Where the input
is a file, a child that ends by `exit` moves it back over all that the shell has read ahead, and the shell reads those lines again.
-/

namespace OsLab.Shell

open Cmd
open Posix ShellAux LinesAux

/-- The tokens that the shell has acted on. -/
def Event.tokens : Event → List Bytes
  | .builtin args => args
  | .single args => args
  | .pipeline left right => left ++ ascii "|" :: right
  | .badPipe left right => left ++ ascii "|" :: right

/-- The lines with a byte that is not blank. -/
def commandLines (input : Bytes) : List Bytes := (lines input).filter fun l => tokensOf l ≠ []

/-- The shell has acted on these lists of tokens, one after the other. -/
def ActedOn (tss : List (List Bytes)) (s s' : Process) : Prop := ∃ evs, s'.ran = s.ran ++ evs ∧ evs.map Event.tokens = tss

theorem ActedOn.of_ran {s s' : Process} (h : s'.ran = s.ran) : ActedOn [] s s' := ⟨[], by rw [h, List.append_nil], rfl⟩

theorem ActedOn.trans {tss tss' : List (List Bytes)} {s s' s'' : Process} (h : ActedOn tss s s') (h' : ActedOn tss' s' s'') :
    ActedOn (tss ++ tss') s s'' := by
  obtain ⟨evs, hran, htokens⟩ := h
  obtain ⟨evs', hran', htokens'⟩ := h'
  exact ⟨evs ++ evs', by rw [hran', hran, List.append_assoc], by rw [List.map_append, htokens, htokens']⟩

theorem ActedOn.of_eq {ts : List Bytes} {s s' : Process} {ev : Event} (hran : s'.ran = s.ran ++ [ev]) (htokens : ev.tokens = ts) :
    ActedOn [ts] s s' :=
  ⟨[ev], hran, by rw [← htokens]; rfl⟩

/-- Run on this input, in any state, the shell comes to its end, and has acted on the tokens of each line that has some, in their order;
unless a child has moved the offset of the input, by its `exit` or by reading. -/
def OneLineOneCommand (input : Bytes) : Prop :=
  ∀ s : Process, s.stdin = input →
    wp (main (input.length + 1))
      (fun _ s' => s'.input.moved = s.input.moved → ActedOn ((commandLines input).map tokensOf) s s')
      (fun r => r.2.input.moved = s.input.moved → r.1 = .exited 0 ∧ ActedOn ((commandLines input).map tokensOf) s r.2) s

/-- Nobody moves the offset: it cannot be moved back, and no program reads. -/
def Input.Fixed (x : Input) : Prop := x.behind = none ∧ ∀ k, x.taken k = 0

/-- The pieces that `fgets` hands over. -/
def pieces (input : Bytes) : List Bytes := records (endsBy endsLine (MAX_LINE - 1)) input

/-- The pieces of a line that have tokens. -/
def parts (line : Bytes) : List Bytes := (pieces line).filter fun p => tokensOf p ≠ []

/-- The line has no more tokens than there is room for, and has them in one piece. -/
def Whole (line : Bytes) : Prop := (tokensOf line).length < MAX_TOKENS ∧ (parts line).length = 1

instance (line : Bytes) : Decidable (Whole line) := inferInstanceAs (Decidable (_ ∧ _))

/-- The lists of tokens that the shell acts on when it reads these pieces. -/
def acted : List Bytes → List (List Bytes)
  | [] => []
  | p :: ps =>
    if (tokensOf p).take 63 = [] then acted ps
    else if ((tokensOf p).take 63).head? = some (ascii "exit") then [(tokensOf p).take 63]
    else (tokensOf p).take 63 :: acted ps

namespace ShellLinesAux

variable {a : Argv} {ts : List Bytes} {t : Bytes} {s s' : Process}

/-! ## What children do to the input -/

/-- Every time the offset is moved is counted, and nobody moves one that is fixed. -/
structure Keeps (x y : Input) : Prop where
  le : x.moved ≤ y.moved
  left : y.moved = x.moved → y.left = x.left
  fixed : x.Fixed → y = x

theorem Keeps.refl (x : Input) : Keeps x x := ⟨Nat.le_refl _, fun _ => rfl, fun _ => rfl⟩

theorem Keeps.trans {x y z : Input} (h : Keeps x y) (h' : Keeps y z) : Keeps x z := by
  have hxy := h.le
  have hyz := h'.le
  refine ⟨hxy.trans hyz, fun heq => ?_, fun hx => ?_⟩
  · rw [h'.left (by omega), h.left (by omega)]
  · have hy := h.fixed hx
    subst hy
    exact h'.fixed hx

theorem Keeps.of_moved {x y : Input} (h : y.moved = x.moved + 1) (hx : ¬x.Fixed) : Keeps x y :=
  ⟨by omega, fun heq => by omega, fun hfixed => absurd hfixed hx⟩

theorem keeps_after (x : Input) (k : Nat) (r : Except (End × Process) (Unit × Process)) : Keeps x (x.after k r) := by
  unfold Input.after
  split
  · unfold Input.rewind
    split
    · exact .refl x
    · rename_i hbehind
      split
      · exact .refl x
      · refine .of_moved rfl fun hfixed => ?_
        rw [hfixed.1] at hbehind
        cases hbehind
  · unfold Input.skip
    split
    · exact .refl x
    · rename_i hread
      exact .of_moved rfl fun hfixed => hread (.inl (hfixed.2 k))
  · exact .refl x

/-- What is left is the same after a child, unless it has moved the offset. -/
theorem keeps_inputAfter (s : Process) (code : Act Unit) : Keeps s.input (s.inputAfter code) := by
  unfold Process.inputAfter
  split
  · exact keeps_after _ _ _
  · exact .refl _

/-! ## What a turn acts on -/

theorem acted_of_single (h : Holds a ts) (hend : SingleEnd a ts.length s s') : ActedOn [ts] s s' ∧ Keeps s.input s'.input := by
  cases hend with
  | forkFails => exact ⟨.of_eq rfl h.held, .refl _⟩
  | runs => exact ⟨.of_eq rfl h.held, keeps_inputAfter (s.recorded _) _⟩

theorem acted_of_pipe {left right : Argv} {l r : List Bytes} (hl : Holds left l) (hr : Holds right r)
    (hend : PipeEnd left l.length right r.length s s') : ActedOn [l ++ ascii "|" :: r] s s' ∧ Keeps s.input s'.input := by
  have htokens : (Event.pipeline (held left l.length) (held right r.length)).tokens = l ++ ascii "|" :: r := by
    rw [hl.held, hr.held]
    rfl
  have hleft : ∀ i o, Keeps s.input (leftMade left l.length right r.length s i o).input := fun i o =>
    keeps_inputAfter (pipeMade left l.length right r.length s i o) _
  cases hend with
  | pipeFails | leftFails => exact ⟨.of_eq rfl htokens, .refl _⟩
  | rightFails => exact ⟨.of_eq rfl htokens, hleft _ _⟩
  | runs => exact ⟨.of_eq rfl htokens, (hleft _ _).trans (keeps_inputAfter (leftMade left l.length right r.length s _ _) _)⟩

theorem acted_of_launch (h : Holds a ts) (hend : LaunchEnd a ts s s') : ActedOn [ts] s s' ∧ Keeps s.input s'.input := by
  rcases hend with ⟨-, hend⟩ | ⟨-, rfl, -, rfl⟩ | ⟨-, rfl, -, hleft, hright, hend⟩
  · exact acted_of_single h hend
  · exact ⟨.of_eq rfl rfl, .refl _⟩
  · exact acted_of_pipe (s := s.nextJunk.nextJunk) hleft hright hend

/-- What the loop does with the tokens of a piece. -/
theorem dispatch_acted (h : Holds a (t :: ts)) (hlen : (t :: ts).length ≤ 63) :
    wp (dispatch a (t :: ts).length) (fun _ s' => t ≠ ascii "exit" ∧ ActedOn [t :: ts] s s' ∧ Keeps s.input s'.input)
      (fun r => t = ascii "exit" ∧ r.1 = .exited 0 ∧ ActedOn [t :: ts] s r.2 ∧ Keeps s.input r.2.input) s := by
  by_cases ht : t ∈ builtins
  · refine wp_mono (dispatch_builtin h ht) (fun _ s' hs' => ?_) fun r hr => ?_
    · exact ⟨hs'.1, .of_eq hs'.2.ran rfl, hs'.2.input ▸ .refl _⟩
    · exact ⟨hr.2.1, hr.1, .of_eq hr.2.2.ran rfl, hr.2.2.input ▸ .refl _⟩
  · have hexit : t ≠ ascii "exit" := fun heq => ht (by rw [heq]; exact List.mem_cons_self)
    rw [dispatch_launch h ht]
    exact wp_mono (launch_wp h hlen) (fun _ s' hend => ⟨hexit, acted_of_launch h hend⟩) fun _ he => he.elim

theorem acted_nil_cons {p : Bytes} (h : (tokensOf p).take 63 = []) (ps : List Bytes) : acted (p :: ps) = acted ps := if_pos h

theorem acted_exit_cons {p : Bytes} (h : (tokensOf p).take 63 = ascii "exit" :: ts) (ps : List Bytes) :
    acted (p :: ps) = [ascii "exit" :: ts] := by
  rw [acted, h, if_neg (List.cons_ne_nil _ _), if_pos List.head?_cons]

theorem acted_cons {p : Bytes} (h : (tokensOf p).take 63 = t :: ts) (ht : t ≠ ascii "exit") (ps : List Bytes) :
    acted (p :: ps) = (t :: ts) :: acted ps := by
  rw [acted, h, if_neg (List.cons_ne_nil _ _), if_neg (by simpa using ht)]

/-- A turn of the loop acts on the next piece, if there are no zero bytes, and the rest is left if no child has moved the offset. -/
theorem mainTurn_acted {tokens : Argv} (htokens : tokens.length = MAX_TOKENS) :
    wp (mainTurn tokens)
      (Cmd.Turn.Meets
        (fun tokens' s' => tokens'.length = MAX_TOKENS ∧ s.input.moved ≤ s'.input.moved ∧
          (s.input.Fixed → s'.input.Fixed ∧ s'.input.moved = s.input.moved) ∧
          ((0 : UInt8) ∉ s.stdin → s'.input.moved = s.input.moved → (0 : UInt8) ∉ s'.stdin ∧ s'.stdin.length < s.stdin.length ∧
            ∃ tss, ActedOn tss s s' ∧ acted (pieces s.stdin) = tss ++ acted (pieces s'.stdin)))
        fun _ s' => s'.input = s.input ∧ ActedOn (acted (pieces s.stdin)) s s')
      (fun r => s.input.moved ≤ r.2.input.moved ∧ (s.input.Fixed → r.2.input.moved = s.input.moved) ∧
        ((0 : UInt8) ∉ s.stdin → r.1 = .exited 0 ∧ ActedOn (acted (pieces s.stdin)) s r.2)) s := by
  cases hget : fgets MAX_LINE s.stdin with
  | none =>
    have hnil : s.stdin = [] := by
      by_contra hne
      rw [fgets, if_neg hne] at hget
      cases hget
    rw [mainTurn_eof hnil, hnil]
    exact ⟨rfl, ActedOn.of_ran rfl⟩
  | some lr =>
    obtain ⟨line, rest⟩ := lr
    obtain ⟨hpieces, hlt⟩ := records_of_fgets (by decide) hget
    have hsplit : s.stdin = line ++ rest := by
      have hflat := congrArg List.flatten hpieces
      rw [List.flatten_cons] at hflat
      simpa only [records, flatten_recordsFrom, List.nil_append] using hflat
    have hzero : (0 : UInt8) ∉ s.stdin → cstr line = line ∧ (0 : UInt8) ∉ rest := by
      rw [hsplit, List.mem_append, not_or]
      exact fun h0 => ⟨cstr_of_not_mem h0.1, h0.2⟩
    have hfixed : s.input.Fixed → (s.input.took line rest).Fixed := by
      rintro ⟨hbehind, htaken⟩
      refine ⟨?_, htaken⟩
      simp only [Input.took, hbehind, Option.map_none, ite_self]
    obtain ⟨a, hholds, hlen, hturn⟩ := mainTurn_line htokens hget
    rw [hturn]
    change pieces s.stdin = line :: pieces rest at hpieces
    rw [hpieces]
    have hroom : ((tokensOf (cstr line)).take 63).length ≤ 63 := List.length_take_le _ _
    cases hts : (tokensOf (cstr line)).take 63 with
    | nil =>
      refine ⟨hlen, Nat.le_refl _, fun hx => ⟨hfixed hx, rfl⟩, fun h0 _ => ⟨(hzero h0).2, hlt, [], ActedOn.of_ran rfl, ?_⟩⟩
      rw [(hzero h0).1] at hts
      exact acted_nil_cons hts _
    | cons t ts =>
      rw [hts] at hholds hroom
      refine wp_mono (dispatch_acted hholds hroom) (fun _ s' hs' => ?_) fun r hr => ?_
      · obtain ⟨ht, hacted, hkeeps⟩ := hs'
        refine ⟨hlen, hkeeps.le, fun hx => ?_, fun h0 hmoved => ?_⟩
        · rw [hkeeps.fixed (hfixed hx)]
          exact ⟨hfixed hx, rfl⟩
        have hrest : s'.stdin = rest := hkeeps.left hmoved
        rw [(hzero h0).1] at hts
        rw [hrest, acted_cons hts ht]
        exact ⟨(hzero h0).2, hlt, [t :: ts], hacted, rfl⟩
      · obtain ⟨rfl, hend, hacted, hkeeps⟩ := hr
        refine ⟨hkeeps.le, fun hx => by rw [hkeeps.fixed (hfixed hx)]; rfl, fun h0 => ?_⟩
        rw [(hzero h0).1] at hts
        rw [acted_exit_cons hts]
        exact ⟨hend, hacted⟩

/-- The loop acts on the pieces of the input. The induction is on the turns: while no child moves the offset there is one for each byte
that is left, and after that nothing is said. -/
theorem mainLoop_acted (n : Nat) {tokens : Argv} (htokens : tokens.length = MAX_TOKENS) :
    wp (mainLoop n tokens)
      (fun _ s' => s.input.moved ≤ s'.input.moved ∧ (s.input.Fixed → s'.input.moved = s.input.moved) ∧
        ((0 : UInt8) ∉ s.stdin → s'.input.moved = s.input.moved → ActedOn (acted (pieces s.stdin)) s s'))
      (fun r => s.input.moved ≤ r.2.input.moved ∧ (s.input.Fixed → r.2.input.moved = s.input.moved) ∧
        ((0 : UInt8) ∉ s.stdin → s.stdin.length < n → r.2.input.moved = s.input.moved →
          r.1 = .exited 0 ∧ ActedOn (acted (pieces s.stdin)) s r.2)) s := by
  induction n generalizing s tokens with
  | zero => exact ⟨Nat.le_refl _, fun _ => rfl, fun _ hn => absurd hn (Nat.not_lt_zero _)⟩
  | succ n ih =>
    rw [mainLoop, wp_bind]
    refine wp_mono (mainTurn_acted htokens) (fun t s₁ hs₁ => ?_) fun r hr => ⟨hr.1, hr.2.1, fun h0 _ _ => hr.2.2 h0⟩
    cases t with
    | done status =>
      obtain ⟨hinput, hacted⟩ := hs₁
      refine ⟨?_, fun _ => ?_, fun _ _ => hacted⟩
      · rw [hinput]
      · rw [hinput]
    | again tokens' =>
      obtain ⟨hlen, hle, hfixed, hturn⟩ := hs₁
      refine wp_mono (ih hlen) (fun _ s₂ hs₂ => ?_) fun r hr => ?_
      · obtain ⟨hle₂, hfixed₂, hloop⟩ := hs₂
        refine ⟨hle.trans hle₂, fun hx => (hfixed₂ (hfixed hx).1).trans (hfixed hx).2, fun h0 hmoved => ?_⟩
        obtain ⟨h0', -, tss, hdone, hleft⟩ := hturn h0 (by omega)
        rw [hleft]
        exact hdone.trans (hloop h0' (by omega))
      · obtain ⟨hle₂, hfixed₂, hloop⟩ := hr
        refine ⟨hle.trans hle₂, fun hx => (hfixed₂ (hfixed hx).1).trans (hfixed hx).2, fun h0 hn hmoved => ?_⟩
        obtain ⟨h0', hlt, tss, hdone, hleft⟩ := hturn h0 (by omega)
        obtain ⟨hend, hacted⟩ := hloop h0' (by omega) (by omega)
        rw [hleft]
        exact ⟨hend, hdone.trans hacted⟩

/-- The shell acts on the pieces of its input, unless the offset is moved; and one that is fixed is not moved. -/
theorem main_acted (h0 : (0 : UInt8) ∉ s.stdin) :
    wp (main (s.stdin.length + 1))
      (fun _ s' => (s.input.Fixed → s'.input.moved = s.input.moved) ∧
        (s'.input.moved = s.input.moved → ActedOn (acted (pieces s.stdin)) s s'))
      (fun r => (s.input.Fixed → r.2.input.moved = s.input.moved) ∧
        (r.2.input.moved = s.input.moved → r.1 = .exited 0 ∧ ActedOn (acted (pieces s.stdin)) s r.2)) s := by
  unfold main
  show wp (mainLoop (s.stdin.length + 1) s.array) _ _ _
  exact wp_mono (mainLoop_acted _ (array_length s)) (fun _ s' hs' => ⟨hs'.2.1, hs'.2.2 h0⟩)
    fun r hr => ⟨hr.2.1, hr.2.2 h0 (Nat.lt_succ_self _)⟩

/-! ## Pieces and lines -/

section

variable {line p : Bytes} {ps : List Bytes}

theorem isDelim_of_blank (h : tokensOf p = []) : ∀ b ∈ p, isDelim b = true := words_eq_nil_iff.mp h

theorem blank_of_filter (h : p.filter (fun b => !isDelim b) = []) : tokensOf p = [] :=
  words_eq_nil fun b hb => by simpa using List.filter_eq_nil_iff.mp h b hb

/-- Pieces without tokens add no bytes to the tokens. -/
theorem filter_flatten_pieces (ps : List Bytes) :
    ps.flatten.filter (fun b => !isDelim b) = (ps.filter fun p => tokensOf p ≠ []).flatten.filter fun b => !isDelim b := by
  induction ps with
  | nil => rfl
  | cons p ps ih =>
    by_cases hp : tokensOf p = []
    · have hblank : p.filter (fun b => !isDelim b) = [] := List.filter_eq_nil_iff.mpr fun b hb => by simp [isDelim_of_blank hp b hb]
      rw [List.filter_cons_of_neg (by simpa using hp), List.flatten_cons, List.filter_append, hblank, ih, List.nil_append]
    · rw [List.filter_cons_of_pos (by simpa using hp), List.flatten_cons, List.flatten_cons, List.filter_append, List.filter_append, ih]

/-- If one piece alone has tokens, they are those of the line. -/
theorem tokensOf_flatten_pieces (ps : List Bytes) (h : ps.filter (fun p => tokensOf p ≠ []) = [p]) : tokensOf ps.flatten = tokensOf p := by
  induction ps with
  | nil => cases h
  | cons q ps ih =>
    rw [List.flatten_cons]
    by_cases hq : tokensOf q = []
    · rw [List.filter_cons_of_neg (by simpa using hq)] at h
      rw [← ih h]
      exact words_seps_append (isDelim_of_blank hq)
    · rw [List.filter_cons_of_pos (by simpa using hq)] at h
      obtain ⟨rfl, hrest⟩ := List.cons_eq_cons.mp h
      refine words_append_seps fun b hb => ?_
      obtain ⟨q', hq', hb⟩ := List.mem_flatten.mp hb
      have hblank := List.filter_eq_nil_iff.mp hrest q' hq'
      exact isDelim_of_blank (by simpa using hblank) b hb

theorem flatten_pieces (line : Bytes) : (pieces line).flatten = line := flatten_recordsFrom

theorem parts_ne_nil (h : tokensOf line ≠ []) : parts line ≠ [] := by
  intro hnil
  have hbytes := filter_flatten_pieces (pieces line)
  rw [flatten_pieces, show (pieces line).filter _ = [] from hnil] at hbytes
  exact h (blank_of_filter hbytes)

theorem parts_of_blank (h : tokensOf line = []) : parts line = [] := by
  refine List.filter_eq_nil_iff.mpr fun p hp => ?_
  have hblank : tokensOf p = [] := words_eq_nil fun b hb => isDelim_of_blank h b (subset_of_mem_records hp hb)
  simpa using hblank

/-- The first 63 tokens of the first piece with tokens are those of the line if and only if it is whole. -/
theorem whole_iff (h : parts line = p :: ps) : Whole line ↔ (tokensOf p).take 63 = tokensOf line := by
  constructor
  · rintro ⟨hroom, hone⟩
    rw [h, List.length_cons, Nat.succ_inj, List.length_eq_zero_iff] at hone
    rw [hone] at h
    have hsame := tokensOf_flatten_pieces (pieces line) h
    rw [flatten_pieces] at hsame
    rw [← hsame]
    exact List.take_of_length_le (Nat.le_of_lt_succ hroom)
  · intro htake
    refine ⟨?_, ?_⟩
    · rw [← htake]
      exact Nat.lt_succ_of_le (List.length_take_le _ _)
    -- the bytes of the tokens are all in the first piece, so there is no other piece
    have hbytes := filter_flatten_pieces (pieces line)
    rw [flatten_pieces, show (pieces line).filter _ = p :: ps from h, List.flatten_cons, List.filter_append,
      ← flatten_words, ← flatten_words]
      at hbytes
    have hfirst : (words isDelim p).flatten = (words isDelim line).flatten ++ ((words isDelim p).drop 63).flatten := by
      conv_lhs => rw [← List.take_append_drop 63 (words isDelim p), List.flatten_append]
      rw [show (words isDelim p).take 63 = words isDelim line from htake]
    rw [hfirst, List.append_assoc, eq_comm, List.append_right_eq_self, List.append_eq_nil_iff] at hbytes
    cases ps with
    | nil => rw [h, List.length_singleton]
    | cons q qs =>
      have hq : q ∈ parts line := by
        rw [h]
        exact List.mem_cons_of_mem _ List.mem_cons_self
      have hblank := hbytes.2
      rw [List.flatten_cons, List.filter_append, List.append_eq_nil_iff] at hblank
      exact absurd (blank_of_filter hblank.1) (by simpa using (List.mem_filter.mp hq).2)

/-! ## The lines that are acted on -/

theorem take_ne_nil (h : tokensOf p ≠ []) : (tokensOf p).take 63 ≠ [] := by simpa using h

theorem acted_filter (ps : List Bytes) : acted (ps.filter fun p => tokensOf p ≠ []) = acted ps := by
  induction ps with
  | nil => rfl
  | cons p ps ih =>
    by_cases hp : tokensOf p = []
    · rw [List.filter_cons_of_neg (by simpa using hp), ih, acted_nil_cons (by rw [hp]; rfl)]
    · rw [List.filter_cons_of_pos (by simpa using hp), acted, acted, ih]

theorem flatMap_parts (ls : List Bytes) : (ls.filter fun l => tokensOf l ≠ []).flatMap parts = ls.flatMap parts := by
  induction ls with
  | nil => rfl
  | cons l ls ih =>
    rw [List.flatMap_cons]
    by_cases hl : tokensOf l = []
    · rw [List.filter_cons_of_neg (by simpa using hl), ih, parts_of_blank hl, List.nil_append]
    · rw [List.filter_cons_of_pos (by simpa using hl), List.flatMap_cons, ih]

theorem acted_pieces (input : Bytes) : acted (pieces input) = acted ((commandLines input).flatMap parts) := by
  rw [commandLines, flatMap_parts, ← acted_filter (pieces input), pieces, records_endsBy_eq_flatMap, List.filter_flatMap]
  rfl

/-- The shell acts on the lines if and only if each is whole, and no line but the last one is `exit`. -/
theorem acted_lines_iff (ls : List Bytes) (h : ∀ l ∈ ls, tokensOf l ≠ []) :
    acted (ls.flatMap parts) = ls.map tokensOf ↔
      (∀ l ∈ ls, Whole l) ∧ ∀ l ∈ ls.dropLast, (tokensOf l).head? ≠ some (ascii "exit") := by
  induction ls with
  | nil => simp [acted]
  | cons l ls ih =>
    have ih := ih fun l' hl' => h l' (List.mem_cons_of_mem _ hl')
    obtain ⟨p, ps, hparts⟩ := List.exists_cons_of_ne_nil (parts_ne_nil (h l List.mem_cons_self))
    have hp : tokensOf p ≠ [] := by
      have hmem : p ∈ parts l := by
        rw [hparts]
        exact List.mem_cons_self
      simpa using (List.mem_filter.mp hmem).2
    rw [List.flatMap_cons, hparts, List.cons_append, List.map_cons]
    by_cases hwhole : Whole l
    · have htake := (whole_iff hparts).mp hwhole
      obtain ⟨t, ts, hts⟩ := List.exists_cons_of_ne_nil (h l List.mem_cons_self)
      have hps : ps = [] := by
        have hone := hwhole.2
        rwa [hparts, List.length_cons, Nat.succ_inj, List.length_eq_zero_iff] at hone
      rw [hts] at htake
      rw [hps, List.nil_append, hts]
      by_cases ht : t = ascii "exit"
      · subst ht
        rw [acted_exit_cons htake]
        cases ls with
        | nil => simpa using hwhole
        | cons l' ls => simp [hts]
      · rw [acted_cons htake ht, List.cons_inj_right, ih]
        cases ls with
        | nil => simpa using hwhole
        | cons l' ls => simp [hts, ht, hwhole]
    · refine ⟨fun heq => absurd ((whole_iff hparts).mpr ?_) hwhole, fun hall => absurd (hall.1 l List.mem_cons_self) hwhole⟩
      obtain ⟨t, ts, hts⟩ := List.exists_cons_of_ne_nil (take_ne_nil hp)
      rw [hts]
      by_cases ht : t = ascii "exit"
      · subst ht
        rw [acted_exit_cons hts] at heq
        exact (List.cons_eq_cons.mp heq).1
      · rw [acted_cons hts ht] at heq
        exact (List.cons_eq_cons.mp heq).1

end

end ShellLinesAux

open ShellLinesAux

/-- For every input without zero bytes, as long as no child moves its offset, neither by reading nor by an `exit` with some of a file in the
buffer: the commands are those of the lines if and only if each line that has tokens has them in one piece, and at most 63, and no such line
but the last one is `exit`. -/
theorem one_line_one_command_iff (input : Bytes) (h0 : (0 : UInt8) ∉ input) :
    OneLineOneCommand input ↔ (∀ l ∈ commandLines input, Whole l) ∧
      ∀ l ∈ (commandLines input).dropLast, (tokensOf l).head? ≠ some (ascii "exit") := by
  have hlines : ∀ l ∈ commandLines input, tokensOf l ≠ [] := fun l hl => by simpa using (List.mem_filter.mp hl).2
  rw [← acted_lines_iff _ hlines, ← acted_pieces]
  constructor
  · intro h
    let s := calm terminal 16 input
    have hfixed : s.input.Fixed := ⟨rfl, fun _ => rfl⟩
    have hboth := finalState_of_wp (P := fun s' => ActedOn ((commandLines input).map tokensOf) s s' ∧ ActedOn (acted (pieces input)) s s')
      (wp_mono (wp_inter (h s rfl) (main_acted (s := s) h0))
        (fun _ _ hs' => ⟨hs'.1 (hs'.2.1 hfixed), hs'.2.2 (hs'.2.1 hfixed)⟩)
        fun _ hr => ⟨(hr.1 (hr.2.1 hfixed)).2, (hr.2.2 (hr.2.1 hfixed)).2⟩)
    obtain ⟨⟨evs, hran, htokens⟩, evs', hran', htokens'⟩ := hboth
    rw [← htokens, ← htokens', List.append_cancel_left (hran.symm.trans hran')]
  · intro heq s hs
    rw [← heq, ← hs]
    exact wp_mono (main_acted (by rw [hs]; exact h0)) (fun _ _ hs' => hs'.2) fun _ hr => hr.2

/-- Some lines that are whole, and a line behind an `exit`. -/
theorem one_line_one_command_of_lines :
    OneLineOneCommand (ascii "ls -l\n \t\ncat < f | wc\nexit") ∧ ¬OneLineOneCommand (ascii "exit\nls\n") := by
  constructor
  · exact (one_line_one_command_iff (ascii "ls -l\n \t\ncat < f | wc\nexit") (by decide +kernel)).mpr (by decide +kernel)
  · intro h
    exact absurd ((one_line_one_command_iff (ascii "exit\nls\n") (by decide +kernel)).mp h) (by decide +kernel)

-- The input is a file and the program of its first line is not found: the `exit` of the child has the second line read again.
example : (finalState (main 5 { calm terminal 16 [] with
    input := ⟨ascii "nosuch\npwd\n", 0, some [], fun _ => 4096, fun _ => 0, 0⟩
    kids := fun _ c _ => if c = .execvp then some 2 else none })).ran =
      [.single [ascii "nosuch"], .builtin [ascii "pwd"], .builtin [ascii "pwd"]] := by
  decide +kernel

/-- A line of more than 1023 bytes is run as two commands, and of a line with 64 tokens the last one is dropped. -/
theorem line_cut_in_two :
    wp (main 3) (fun _ s' => s'.ran = [.builtin [ascii "echo"], .single [ascii "rm", ascii "f"]]) (fun _ => False)
        (calm terminal 16 (ascii "echo" ++ List.replicate 1019 32 ++ ascii "rm f\n")) ∧
      wp (main 2) (fun _ s' => s'.ran = [.single (List.replicate 63 (ascii "a"))]) (fun _ => False)
        (calm terminal 16 ((List.replicate 63 (ascii "a ")).flatten ++ ascii "b\n")) := by
  decide +kernel

end OsLab.Shell
