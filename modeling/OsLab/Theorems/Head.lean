import OsLab.LineTools
import OsLab.Lemmas.Posix

/-!
# custom_head

What has been printed and what is in `print_buf` are together the part of the file that has been taken so far (`HeadInv`), whatever the
blocks and the lines. So at the end the output is the shortest beginning of the file with `n` newlines, or the file (`head_prints`).
-/

namespace OsLab.Posix

open Cmd

/-- `p` is the shortest beginning of `c` with `n` newlines, or all of `c` when it has fewer. -/
structure IsHead (n : Nat) (c p : Bytes) : Prop where
  start : p <+: c
  enough : n ≤ c.count NL → p.count NL = n ∧ ∀ q, q <+: c → n ≤ q.count NL → p <+: q
  short : c.count NL < n → p = c

namespace HeadAux

open PosixAux

variable {E : Stop → Prop} {s s' s0 : Os} {c : Bytes} {i : Ino} {n k : Nat} {st : HeadSt}

theorem count_take_succ {b : UInt8} (hb : (c)[k]? = some b) :
    (c.take (k + 1)).count NL = (c.take k).count NL + if b = NL then 1 else 0 := by
  rw [List.take_add_one, hb, List.count_append]
  by_cases h : b = NL <;> simp [h]

/-- The first `k` bytes have been taken. -/
structure HeadInv (s0 : Os) (c : Bytes) (n k : Nat) (st : HeadSt) (s : Os) : Prop where
  le : k ≤ c.length
  out : s.stdout ++ st.printBuf.take st.printBufLen = s0.stdout ++ c.take k
  lines : st.linesPrinted = (c.take k).count NL
  least : ∀ j < k, (c.take j).count NL < n
  buf : st.printBuf.length = BLOCK
  room : st.printBufLen < BLOCK - 1
  fs : s.fs = s0.fs
  writes : FullWrites s
  reads : NoError .reads s

/-- A flush: what was in the buffer is printed. -/
theorem headFlush_wp (hw : FullWrites s) (hr : NoError .reads s) :
    wp (headFlush st)
      (fun st' s' => st' = { st with printBufLen := 0 } ∧ s'.stdout = s.stdout ++ st.printBuf.take st.printBufLen ∧ s'.fs = s.fs ∧
        FullWrites s' ∧ NoError .reads s') E s := by
  unfold headFlush
  rw [wp_bind, wp_write_full hw]
  exact ⟨rfl, rfl, rfl, fullWrites_popped hw .writes, noError_popped hr .writes⟩

theorem headByte_wp {b : UInt8} (h : HeadInv s0 c n k st s) (hb : (c)[k]? = some b) (hlt : st.linesPrinted < n) :
    wp (headByte b st) (fun st' s' => HeadInv s0 c n (k + 1) st' s' ∧ st'.fd = st.fd) E s := by
  have hroom := h.room
  have hidx : st.printBufLen < st.printBuf.length := by
    rw [h.buf]
    omega
  have hk : k < c.length := (List.getElem?_eq_some_iff.mp hb).1
  have hleast : ∀ j < k + 1, (c.take j).count NL < n := by
    intro j hj
    rcases Nat.lt_succ_iff_lt_or_eq.mp hj with hj | rfl
    · exact h.least j hj
    · rw [← h.lines]
      exact hlt
  -- what has been printed, what was in the buffer, and the new byte
  have hout : s.stdout ++ (st.printBuf.set st.printBufLen b).take (st.printBufLen + 1) = s0.stdout ++ c.take (k + 1) := by
    rw [take_set_succ b hidx, ← List.append_assoc, h.out, List.take_add_one, hb, List.append_assoc]
    rfl
  have hbuf : (st.printBuf.set st.printBufLen b).length = BLOCK := by rw [List.length_set, h.buf]
  unfold headByte
  rw [wp_bind, wp_store hidx]
  dsimp only
  by_cases hnl : b = NL
  · rw [if_pos hnl]
    simp only [wp_bind]
    refine wp_mono (headFlush_wp h.writes h.reads) (fun st1 s1 h1 => ?_) fun _ he => he
    obtain ⟨rfl, hs1, hfs1, hw1, hr1⟩ := h1
    rw [wp_bind, wp_pure]
    dsimp only
    rw [if_neg (by decide), wp_pure]
    refine ⟨⟨hk, ?_, ?_, hleast, hbuf, Nat.zero_lt_succ _, hfs1.trans h.fs, hw1, hr1⟩, rfl⟩
    · rw [hs1, List.take_zero, List.append_nil]
      exact hout
    · rw [count_take_succ hb, if_pos hnl, ← h.lines]
  · have hlines : st.linesPrinted = (c.take (k + 1)).count NL := by
      rw [count_take_succ hb, if_neg hnl, ← h.lines, Nat.add_zero]
    rw [if_neg hnl, wp_bind, wp_pure]
    dsimp only
    by_cases hfull : st.printBufLen + 1 = BLOCK - 1
    · rw [if_pos hfull]
      refine wp_mono (headFlush_wp h.writes h.reads) (fun st1 s1 h1 => ?_) fun _ he => he
      obtain ⟨rfl, hs1, hfs1, hw1, hr1⟩ := h1
      refine ⟨⟨hk, ?_, hlines, hleast, hbuf, Nat.zero_lt_succ _, hfs1.trans h.fs, hw1, hr1⟩, rfl⟩
      rw [hs1, List.take_zero, List.append_nil]
      exact hout
    · rw [if_neg hfull, wp_pure]
      exact ⟨⟨hk, hout, hlines, hleast, hbuf, by dsimp only; omega, h.fs, h.writes, h.reads⟩, rfl⟩

/-- The bytes of a block, up to the last line that is wanted. -/
theorem headBytes_wp {bs : Bytes} (h : HeadInv s0 c n k st s) (hbs : bs <+: c.drop k) (hle : st.linesPrinted ≤ n) :
    wp (headBytes n bs st)
      (fun st' s' => ∃ k', HeadInv s0 c n k' st' s' ∧ st'.linesPrinted ≤ n ∧ (st'.linesPrinted < n → k' = k + bs.length) ∧
        st'.fd = st.fd) E s := by
  induction bs generalizing k st s with
  | nil => exact ⟨k, h, hle, fun _ => rfl, rfl⟩
  | cons b bs ih =>
    unfold headBytes
    rw [wp_ite]
    refine ⟨fun hlt => ?_, fun hge => ⟨k, h, hle, fun hlt => absurd hlt hge, rfl⟩⟩
    obtain ⟨hb, hnext⟩ := cons_prefix_drop hbs
    refine wp_call (headByte_wp h hb hlt) fun st1 s1 h1 => ?_
    have hle1 : st1.linesPrinted ≤ n := by
      have hlines := h.lines
      rw [h1.1.lines, count_take_succ hb]
      split <;> omega
    refine wp_mono (ih h1.1 hnext hle1) (fun st2 s2 h2 => ?_) fun _ he => he
    obtain ⟨k', hk', hle2, hall, hfd⟩ := h2
    exact ⟨k', hk', hle2, fun hlt => by rw [hall hlt, List.length_cons]; omega, hfd.trans h1.2⟩

/-- Between two turns of the loop: the file has been read up to where the bytes have been taken, unless the loop is over. -/
def HeadLoop (s0 : Os) (c : Bytes) (i : Ino) (n : Nat) (st : HeadSt) (s : Os) : Prop :=
  ∃ k, HeadInv s0 c n k st s ∧ st.linesPrinted ≤ n ∧ st.fd.ino = i ∧ st.fd.pos ≤ c.length ∧ (st.linesPrinted < n → k = st.fd.pos)

/-- When the loop is over: enough lines have been taken, or everything. -/
def HeadDone (s0 : Os) (c : Bytes) (n : Nat) (r : Except Nat HeadSt) (s : Os) : Prop :=
  ∃ st k, r = .ok st ∧ HeadInv s0 c n k st s ∧ (st.linesPrinted = n ∨ st.linesPrinted < n ∧ k = c.length)

theorem headTurn_wp (hdata : (s0.fs.inode i).data = c) (h : HeadLoop s0 c i n st s) :
    wp (headTurn n st)
      (Cmd.Turn.Meets (fun st' s' => HeadLoop s0 c i n st' s' ∧ c.length - st'.fd.pos < c.length - st.fd.pos) (HeadDone s0 c n)) E s := by
  obtain ⟨k, hinv, hle, hino, hpos, hk⟩ := h
  unfold headTurn
  rw [wp_ite]
  refine ⟨fun hlt => ?_, fun hge => ⟨st, k, rfl, hinv, .inl (by omega)⟩⟩
  obtain rfl := hk hlt
  have hci : (s.fs.inode st.fd.ino).data = c := by rw [hinv.fs, hino, hdata]
  -- the read has taken an answer, and moved the descriptor
  have hread : ∀ fd, HeadInv s0 c n st.fd.pos { st with fd := fd } (s.popped .reads) := fun fd =>
    ⟨hinv.le, hinv.out, hinv.lines, hinv.least, hinv.buf, hinv.room, hinv.fs, fullWrites_popped hinv.writes _,
      noError_popped hinv.reads _⟩
  rw [wp_bind]
  refine wp_read_next hci (by decide) hpos hinv.reads (fun hend => ⟨_, st.fd.pos, rfl, hread _, .inr ⟨hlt, hend⟩⟩) fun b bs hpre _ hin => ?_
  dsimp only
  rw [wp_bind]
  refine wp_mono (headBytes_wp (hread _) hpre hle) (fun st1 s1 h1 => ?_) fun _ he => he
  obtain ⟨k', hk', hle1, hall, hfd⟩ := h1
  have hpos1 : st1.fd.pos = st.fd.pos + (b :: bs).length := by rw [hfd]
  refine ⟨⟨k', hk', hle1, by rw [hfd]; exact hino, by omega, fun h => by rw [hall h, hpos1]⟩, ?_⟩
  show c.length - st1.fd.pos < c.length - st.fd.pos
  rw [List.length_cons] at hpos1 hin
  omega

/-- What has been taken when the loop is over is what is to be printed. -/
theorem isHead_of_done (h : HeadInv s0 c n k st s) (hdone : st.linesPrinted = n ∨ st.linesPrinted < n ∧ k = c.length) :
    IsHead n c (c.take k) := by
  have hlines := h.lines
  refine ⟨ List.take_prefix k c, fun henough => ?_, fun hshort => ?_⟩
  · have hcount : (c.take k).count NL = n := by
      rcases hdone with hn | ⟨hlt, rfl⟩
      · omega
      · rw [List.take_length] at hlines
        omega
    refine ⟨hcount, fun q hq hqn => ?_⟩
    rw [List.prefix_iff_eq_take.mp hq] at hqn ⊢
    refine List.take_prefix_take_left (Nat.le_of_not_lt fun hlt => ?_)
    have := h.least _ hlt
    omega
  · rcases hdone with hn | ⟨-, rfl⟩
    · have hle : (c.take k).count NL ≤ c.count NL := (List.take_sublist k c).count_le NL
      omega
    · exact List.take_length

theorem headInv_start {buf : Bytes} {fd : OpenFile} (hbuf : buf.length = BLOCK) (hout : s.stdout = s0.stdout) (hfs : s.fs = s0.fs)
    (hw : FullWrites s) (hr : NoError .reads s) : HeadInv s0 c n 0 ⟨fd, 0, buf, 0⟩ s where
  le := Nat.zero_le _
  out := by rw [List.take_zero, List.take_zero, hout]
  lines := by simp
  least := nofun
  buf := hbuf
  room := Nat.zero_lt_succ _
  fs := hfs
  writes := hw
  reads := hr

end HeadAux

open PosixAux HeadAux

/-- For every file, every `n` and every way in which `read` splits the file, with no error and every `write` done in full:
`custom_head` returns 0 without leaving an array, and prints the shortest beginning of the file with `n` newlines, or the file. -/
theorem head_prints (s : Os) (path : Path) (c : Bytes) (n turns : Nat) (hfile : s.fs.content path = some c)
    (hopen : NoError .opens s) (hreads : NoError .reads s) (hwrites : FullWrites s) (hturns : c.length < turns) :
    ∃ s' p, headFile turns n path s = .ok (0, s') ∧ s'.stdout = s.stdout ++ p ∧ IsHead n c p := by
  obtain ⟨i, hi, hdata⟩ := Option.map_eq_some_iff.mp hfile
  have hspec : wp (headFile turns n path) (fun v s' => v = 0 ∧ ∃ p, s'.stdout = s.stdout ++ p ∧ IsHead n c p)
      (fun _ => False) s := by
    unfold headFile
    rw [wp_bind, wp_openRead]
    refine ⟨fun e he => absurd he (hopen 0 e), fun _ => ?_⟩
    rw [hi]
    dsimp only
    rw [wp_bind, wp_junk]
    have hstart : HeadLoop s c i n ⟨⟨i, 0⟩, 0, block ((s.popped .opens).junk 0) BLOCK, 0⟩ (s.popped .opens).nextJunk :=
      ⟨0, headInv_start (length_block _ _) rfl rfl (fullWrites_popped hwrites .opens) (noError_popped hreads .opens), Nat.zero_le _, rfl,
        Nat.zero_le _, fun _ => rfl⟩
    have hloop : wp (Cmd.loop .running (headTurn n) turns _) (HeadDone s c n) (fun _ => False) _ :=
      wp_loop_lt (I := HeadLoop s c i n) (fun st _ => c.length - st.fd.pos) (fun st t h => headTurn_wp hdata h)
        (Nat.lt_of_le_of_lt (Nat.sub_le _ _) hturns) hstart
    refine wp_call hloop fun r s1 h1 => ?_
    obtain ⟨st, k, rfl, hinv, hdone⟩ := h1
    have hp := isHead_of_done hinv hdone
    dsimp only
    by_cases hlen : 0 < st.printBufLen
    · simp only [if_pos hlen, wp_bind]
      rw [wp_write_full hinv.writes]
      exact ⟨rfl, _, hinv.out, hp⟩
    · simp only [if_neg hlen]
      have hzero : st.printBufLen = 0 := by omega
      have hout := hinv.out
      rw [hzero, List.take_zero, List.append_nil] at hout
      exact ⟨rfl, _, hout, hp⟩
  obtain ⟨v, s', hrun, rfl, p, hp⟩ := exists_of_wp hspec
  exact ⟨s', p, hrun, hp⟩

/-- The first two of three lines, read a byte at a time: the loop ends at the second newline. -/
theorem head_prints_bytewise :
    linesFile.content [97] = some threeLines ∧ NoError .opens (willing linesFile bytewise) ∧
      NoError .reads (willing linesFile bytewise) ∧ FullWrites (willing linesFile bytewise) ∧
      ∃ s', headFile 7 2 [97] (willing linesFile bytewise) = .ok (0, s') ∧ s'.stdout = [49, NL, 50, NL] := by
  have hopen : NoError .opens (willing linesFile bytewise) := willing_ok _ _ _ (by decide)
  have hreads : NoError .reads (willing linesFile bytewise) := willing_bytewise _
  have hwrites : FullWrites (willing linesFile bytewise) := willing_writes _ _
  have hfile : linesFile.content [97] = some threeLines := by decide
  obtain ⟨s', p, hrun, hout, hp⟩ := head_prints _ [97] threeLines 2 7 hfile hopen hreads hwrites (by decide)
  obtain ⟨hcount, hmin⟩ := hp.enough (by decide)
  have hpre := hmin [49, NL, 50, NL] (by decide) (by decide)
  have hall : ∀ k < 5, ([49, NL, 50, NL].take k).count NL = 2 → [49, NL, 50, NL].take k = [49, NL, 50, NL] := by decide
  have heq := List.prefix_iff_eq_take.mp hpre
  rw [heq] at hcount
  exact ⟨hfile, hopen, hreads, hwrites, s', hrun, hout.trans (heq.trans (hall _ (Nat.lt_succ_of_le hpre.length_le) hcount))⟩

end OsLab.Posix
