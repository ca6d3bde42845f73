import OsLab.LineTools
import OsLab.Lemmas.Posix
import OsLab.Lemmas.Lines
import OsLab.Lib.Ring

/-!
# custom_tail

`dump_tail` cuts the file into records, across the blocks in which it is read, and puts each into a ring of `N` cells (`TailInv`). What it
prints at the end is the last `N` records (`tail_prints`).
-/

namespace OsLab.Posix

open Cmd hiding wp_call

/-- The records of `custom_tail`: a record ends at a newline, at 4095 bytes, or at the end of the file. -/
def tailRecords (c : Bytes) : List Bytes := records (endsBy endsLine (MAX_LINE_LEN - 1)) c

/-- The last `n` elements of a list, or all of them. -/
def lastOf {α : Type} (n : Nat) (l : List α) : List α := l.drop (l.length - n)

namespace TailAux

open PosixAux LinesAux

variable {E : Stop → Prop} {s s' s0 : Os} {c cur r : Bytes} {i : Ino} {n k : Nat} {st : TailSt} {done : List Bytes}

theorem wp_ringIndex {m : Nat} {Q : Nat → Os → Prop} (hn : 0 < n) : wp (ringIndex n (m : Int)) Q E s ↔ Q (m % n) s := by
  have hmod : (m : Int).tmod n = ((m % n : Nat) : Int) := by
    rw [Int.ofNat_tmod]
  have hlt : m % n < n := Nat.mod_lt _ hn
  unfold ringIndex
  rw [hmod]
  dsimp only
  rw [if_pos ⟨by omega, by omega⟩, Int.toNat_natCast]
  rfl

/-- The state of the calls stays as it was, but for the answers taken. -/
structure TailEnv (s0 s : Os) : Prop where
  out : s.stdout = s0.stdout
  fs : s.fs = s0.fs
  reads : NoError .reads s
  writes : NoError .writes s
  allocs : NoError .allocs s

theorem TailEnv.popped (h : TailEnv s0 s) (d : Syscall) : TailEnv s0 (s.popped d) :=
  ⟨h.out, h.fs, noError_popped h.reads d, noError_popped h.writes d, noError_popped h.allocs d⟩

/-- The ring holds the records `done`, and `cur` is in `temp_line`. -/
structure TailBuf (n : Nat) (done : List Bytes) (cur : Bytes) (st : TailSt) : Prop where
  ring : RingHolds n done st.circ
  count : st.count = done.length
  buf : st.tempLine.length = MAX_LINE_LEN
  len : st.tLen = cur.length
  held : st.tempLine.take st.tLen = cur
  nul : (0 : UInt8) ∉ cur

/-- A record that is over goes into the ring. -/
theorem tailRecord_wp (hn : 0 < n) (henv : TailEnv s0 s) (h : TailBuf n done cur st) (hfit : cur.length < MAX_LINE_LEN)
    (hcount : done.length + 1 < 2 ^ 31) :
    wp (tailRecord n st) (fun st' s' => TailEnv s0 s' ∧ TailBuf n (done ++ [cur]) [] st' ∧ st'.fd = st.fd) E s := by
  have hidx : st.tLen < st.tempLine.length := by rw [h.len, h.buf]; exact hfit
  have hcell : done.length % n < st.circ.length := by
    rw [h.ring.length]
    exact Nat.mod_lt _ hn
  have htext : cstr (st.tempLine.set st.tLen 0) = cur := by
    have hsplit : st.tempLine.set st.tLen 0 = cur ++ 0 :: st.tempLine.drop (st.tLen + 1) := by
      rw [List.set_eq_take_append_cons_drop, if_pos hidx, h.held]
    rw [hsplit, cstr_append_zero h.nul]
  have hnext : int32 (st.count + 1) = ((done.length + 1 : Nat) : Int) := by
    rw [h.count]
    exact int32_of_lt (by omega) (by omega)
  unfold tailRecord strdup
  rw [wp_bind, wp_store hidx, wp_bind, h.count, wp_ringIndex hn, wp_bind, wp_call]
  refine ⟨fun e he => absurd he (henv.allocs 0 e), fun _ => ?_⟩
  rw [wp_pure, wp_bind, wp_store hcell, htext, wp_pure]
  refine ⟨henv.popped _, ⟨h.ring.put hn cur, ?_, ?_, rfl, List.take_zero, by simp⟩, rfl⟩
  · rw [← h.count, hnext, List.length_append, List.length_singleton]
  · rw [List.length_set, h.buf]

/-- The first `k` bytes have been taken. -/
structure TailInv (s0 : Os) (c : Bytes) (n k : Nat) (st : TailSt) (s : Os) : Prop where
  env : TailEnv s0 s
  state : ∃ done cur, TailBuf n done cur st ∧ cur.length < MAX_LINE_LEN - 1 ∧
    tailRecords c = done ++ recordsFrom (endsBy endsLine (MAX_LINE_LEN - 1)) cur (c.drop k)

theorem tailByte_wp {b : UInt8} (hn : 0 < n) (hnul : (0 : UInt8) ∉ c) (hR : (tailRecords c).length < 2 ^ 31)
    (h : TailInv s0 c n k st s) (hb : (c)[k]? = some b) :
    wp (tailByte n b st) (fun st' s' => TailInv s0 c n (k + 1) st' s' ∧ st'.fd = st.fd) E s := by
  obtain ⟨henv, done, cur, hbuf, hcur, hrec⟩ := h
  have hdrop : c.drop k = b :: c.drop (k + 1) := by
    obtain ⟨hk, rfl⟩ := List.getElem?_eq_some_iff.mp hb
    exact List.drop_eq_getElem_cons hk
  rw [hdrop] at hrec
  have hb0 : b ≠ 0 := fun h0 => hnul (h0 ▸ List.mem_of_getElem? hb)
  have hidx : st.tLen < st.tempLine.length := by
    rw [hbuf.len, hbuf.buf]
    omega
  have hlen : (cur ++ [b]).length = cur.length + 1 := by simp
  -- the byte is in `temp_line`
  have hbuf' : TailBuf n done (cur ++ [b]) { st with tempLine := st.tempLine.set st.tLen b, tLen := st.tLen + 1 } := by
    refine ⟨hbuf.ring, hbuf.count, by rw [List.length_set, hbuf.buf], by rw [hbuf.len, hlen], ?_, ?_⟩
    · rw [take_set_succ b hidx, hbuf.held]
    · simp [hbuf.nul, Ne.symm hb0]
  have hends : endsBy endsLine (MAX_LINE_LEN - 1) (cur ++ [b]) = true ↔ b = NL ∨ st.tLen + 1 = MAX_LINE_LEN - 1 := by
    simp [endsBy, endsLine, hbuf.len]
  unfold tailByte
  rw [wp_bind, wp_store hidx]
  dsimp only
  rw [wp_ite]
  refine ⟨fun hover => ?_, fun hgoes => ?_⟩
  · rw [recordsFrom_ends (hends.mpr hover)] at hrec
    have hcount : done.length + 1 < 2 ^ 31 := by
      rw [hrec, List.length_append, List.length_cons] at hR
      omega
    have hfit : (cur ++ [b]).length < MAX_LINE_LEN := by
      unfold MAX_LINE_LEN at hcur ⊢
      omega
    refine wp_mono (tailRecord_wp hn henv hbuf' hfit hcount) (fun st1 s1 h1 => ?_) fun _ he => he
    refine ⟨⟨h1.1, done ++ [cur ++ [b]], [], h1.2.1, by decide, ?_⟩, h1.2.2⟩
    rw [hrec, List.append_assoc]
    rfl
  · have hno : endsBy endsLine (MAX_LINE_LEN - 1) (cur ++ [b]) = false := by
      rw [← Bool.not_eq_true, hends]
      exact hgoes
    rw [recordsFrom_goes hno] at hrec
    have hshort : cur.length + 1 ≠ MAX_LINE_LEN - 1 := fun h => hgoes (.inr (hbuf.len ▸ h))
    exact ⟨⟨henv, done, cur ++ [b], hbuf', by omega, hrec⟩, rfl⟩

theorem tailBytes_wp {bs : Bytes} (hn : 0 < n) (hnul : (0 : UInt8) ∉ c) (hR : (tailRecords c).length < 2 ^ 31)
    (h : TailInv s0 c n k st s) (hbs : bs <+: c.drop k) :
    wp (tailBytes n bs st) (fun st' s' => TailInv s0 c n (k + bs.length) st' s' ∧ st'.fd = st.fd) E s := by
  induction bs generalizing k st s with
  | nil => exact ⟨h, rfl⟩
  | cons b bs ih =>
    obtain ⟨hb, hnext⟩ := cons_prefix_drop hbs
    refine Cmd.wp_call (tailByte_wp hn hnul hR h hb) fun st1 s1 h1 => ?_
    refine wp_mono (ih h1.1 hnext) (fun st2 s2 h2 => ?_) fun _ he => he
    rw [List.length_cons, show k + (bs.length + 1) = k + 1 + bs.length by omega]
    exact ⟨h2.1, h2.2.trans h1.2⟩

theorem tailTurn_wp (hn : 0 < n) (hnul : (0 : UInt8) ∉ c) (hR : (tailRecords c).length < 2 ^ 31) (hdata : (s0.fs.inode i).data = c)
    (h : TailInv s0 c n st.fd.pos st s ∧ st.fd.ino = i ∧ st.fd.pos ≤ c.length) :
    wp (tailTurn n st)
      (Cmd.Turn.Meets
        (fun st' s' => (TailInv s0 c n st'.fd.pos st' s' ∧ st'.fd.ino = i ∧ st'.fd.pos ≤ c.length) ∧
          c.length - st'.fd.pos < c.length - st.fd.pos)
        fun r s' => r.2 = none ∧ TailInv s0 c n c.length r.1 s') E s := by
  obtain ⟨hinv, hino, hpos⟩ := h
  have hci : (s.fs.inode st.fd.ino).data = c := by rw [hinv.env.fs, hino, hdata]
  have hread : ∀ fd, TailInv s0 c n st.fd.pos { st with fd := fd } (s.popped .reads) := by
    intro fd
    obtain ⟨henv, done, cur, hbuf, hcur, hrec⟩ := hinv
    exact ⟨henv.popped _, done, cur, ⟨hbuf.ring, hbuf.count, hbuf.buf, hbuf.len, hbuf.held, hbuf.nul⟩, hcur, hrec⟩
  unfold tailTurn
  rw [wp_bind]
  refine wp_read_next hci (by decide) hpos hinv.env.reads (fun hend => ⟨rfl, hend ▸ hread _⟩) fun b bs hpre _ hin => ?_
  dsimp only
  rw [wp_bind]
  refine wp_mono (tailBytes_wp hn hnul hR (hread _) hpre) (fun st1 s1 h1 => ?_) fun _ he => he
  have hpos1 : st1.fd.pos = st.fd.pos + (b :: bs).length := by rw [h1.2]
  refine ⟨⟨hpos1 ▸ h1.1, by rw [h1.2]; exact hino, by omega⟩, ?_⟩
  show c.length - st1.fd.pos < c.length - st.fd.pos
  rw [List.length_cons] at hpos1 hin
  omega

/-! ## What is printed -/

/-- The last turns of the loop that prints, with `m` records printed. -/
theorem tailPrint_wp {xs : List Bytes} {circ : List (Option Bytes)} {m left : Nat} (hn : 0 < n) (hring : RingHolds n xs circ)
    (hnul : ∀ x ∈ xs, (0 : UInt8) ∉ x) (hlen : xs.length < 2 ^ 31) (hleft : m + left = (lastOf n xs).length)
    (hout : s.stdout = s0.stdout ++ ((lastOf n xs).take m).flatten) (hfs : s.fs = s0.fs) (hw : NoError .writes s) :
    wp (tailPrint n circ (ringStart n xs.length : Nat) left m)
      (fun _ s' => s'.stdout = s0.stdout ++ (lastOf n xs).flatten) E s := by
  induction left generalizing m s with
  | zero =>
    rw [Nat.add_zero] at hleft
    rwa [hleft, List.take_length] at hout
  | succ left ih =>
    have hm : m < (lastOf n xs).length := by omega
    have hlast : (lastOf n xs).length = xs.length - (xs.length - n) := List.length_drop
    have hx : (lastOf n xs)[m]? = some (lastOf n xs)[m] := List.getElem?_eq_getElem hm
    have htake : (lastOf n xs).take (m + 1) = (lastOf n xs).take m ++ [(lastOf n xs)[m]] := by
      rw [List.take_add_one, hx]
      rfl
    have hmem : (lastOf n xs)[m] ∈ xs := List.mem_of_mem_drop (List.getElem_mem hm)
    -- the sum does not overflow: the start and a whole round are within the count
    have hsum : int32 ((ringStart n xs.length : Nat) + (m : Int)) = ((ringStart n xs.length + m : Nat) : Int) := by
      have hle : ringStart n xs.length + m < 2 ^ 31 := by
        unfold ringStart
        split
        · rename_i hlt
          have hdiv := Nat.mod_add_div xs.length n
          have hone : n * 1 ≤ n * (xs.length / n) := Nat.mul_le_mul_left n (Nat.div_pos (Nat.le_of_lt hlt) hn)
          omega
        · omega
      push_cast
      exact int32_of_lt (by omega) (by omega)
    unfold tailPrint
    rw [wp_bind, hsum, wp_ringIndex hn, hring.get hx]
    dsimp only
    rw [cstr_of_not_mem (hnul _ hmem), wp_bind]
    have hwrote : Wrote s none [] .stdout s := ⟨rfl, (List.append_nil _).symm, rfl⟩
    refine wp_mono (writeAll_wp hwrote) (fun r s1 h1 => ?_) fun _ he => he
    obtain ⟨-, hne, h1⟩ := h1
    cases r with
    | error e => exact absurd hw h1.1
    | ok fd =>
      refine ih (by omega) ?_ (h1.2.2.trans hfs) (hne hw)
      rw [h1.2.1, hout, htake, List.flatten_append, List.flatten_singleton, List.nil_append, List.append_assoc]

theorem TailEnv.nextJunk (h : TailEnv s0 s) : TailEnv s0 s.nextJunk := ⟨h.out, h.fs, h.reads, h.writes, h.allocs⟩

theorem tailInv_start {buf : Bytes} {f : OpenFile} (hbuf : buf.length = MAX_LINE_LEN) (henv : TailEnv s0 s) :
    TailInv s0 c n 0 ⟨f, List.replicate n none, buf, 0, 0⟩ s :=
  ⟨henv, [], [], ⟨RingHolds.empty n, rfl, hbuf, rfl, List.take_zero, List.not_mem_nil⟩, Nat.zero_lt_succ _, rfl⟩

/-- What is left in `temp_line` at the end of the file is a record as well. -/
theorem tailLast_wp (hn : 0 < n) (hR : (tailRecords c).length < 2 ^ 31) (h : TailInv s0 c n c.length st s) :
    wp (if 0 < st.tLen then tailRecord n st else pure st)
      (fun st' s' => TailEnv s0 s' ∧ RingHolds n (tailRecords c) st'.circ ∧ st'.count = (tailRecords c).length) E s := by
  obtain ⟨henv, done, cur, hbuf, hcur, hrec⟩ := h
  rw [List.drop_length] at hrec
  rw [wp_ite]
  refine ⟨fun hlen => ?_, fun hlen => ?_⟩
  · have hne : cur ≠ [] := List.ne_nil_of_length_pos (hbuf.len ▸ hlen)
    rw [recordsFrom_nil hne] at hrec
    rw [hrec, List.length_append, List.length_singleton] at hR
    refine wp_mono (tailRecord_wp hn henv hbuf (by omega) hR) (fun st1 s1 h1 => ?_) fun _ he => he
    rw [hrec]
    exact ⟨h1.1, h1.2.1.ring, h1.2.1.count⟩
  · have hnil : cur = [] := List.length_eq_zero_iff.mp (by have := hbuf.len; omega)
    subst hnil
    have hdone : tailRecords c = done := hrec.trans (List.append_nil done)
    rw [hdone]
    exact ⟨henv, hbuf.ring, hbuf.count⟩

/-- No line is longer than the buffer: the records are the lines. -/
theorem tailRecords_eq_lines (h : ∀ l ∈ lines c, l.length ≤ 4095) : tailRecords c = lines c := recordsFrom_endsBy h

end TailAux

open PosixAux TailAux

/-- For every file without zero bytes and with fewer than 2^31 records, every `n` of at least 1, every way in which `read` splits the file
and every schedule of short writes: `dump_tail` returns 0 without leaving an array, and prints the last `n` records; these are the last `n`
lines when no line is longer than 4095 bytes. -/
theorem tail_prints (s : Os) (path : Path) (c : Bytes) (n turns : Nat) (hn : 1 ≤ n) (hfile : s.fs.content path = some c)
    (hnul : (0 : UInt8) ∉ c) (hR : (tailRecords c).length < 2 ^ 31) (hopen : NoError .opens s) (halloc : NoError .allocs s)
    (hreads : NoError .reads s) (hwrites : NoError .writes s) (hturns : c.length < turns) :
    ∃ s', dumpTail turns n path s = .ok (0, s') ∧ s'.stdout = s.stdout ++ (lastOf n (tailRecords c)).flatten ∧
      ((∀ l ∈ lines c, l.length ≤ 4095) → s'.stdout = s.stdout ++ (lastOf n (lines c)).flatten) := by
  obtain ⟨i, hi, hdata⟩ := Option.map_eq_some_iff.mp hfile
  have hspec : wp (dumpTail turns n path) (fun v s' => v = 0 ∧ s'.stdout = s.stdout ++ (lastOf n (tailRecords c)).flatten)
      (fun _ => False) s := by
    unfold dumpTail
    rw [wp_bind, wp_openRead]
    refine ⟨fun e he => absurd he (hopen 0 e), fun _ => ?_⟩
    rw [hi]
    dsimp only
    rw [wp_bind, wp_ask]
    have henv : TailEnv s ((s.popped .opens).popped .allocs) :=
      ⟨rfl, rfl, noError_popped (noError_popped hreads _) _, noError_popped (noError_popped hwrites _) _,
        noError_popped (noError_popped halloc _) _⟩
    split
    · rename_i e he
      exact absurd he (noError_popped halloc _ 0 e)
    · rw [wp_bind, wp_junk, wp_bind]
      have hstart := tailInv_start (c := c) (n := n) (f := ⟨i, 0⟩) (length_block (((s.popped .opens).popped .allocs).junk 0) _)
        henv.nextJunk
      refine wp_mono (wp_loop_lt (I := fun st s' => TailInv s c n st.fd.pos st s' ∧ st.fd.ino = i ∧ st.fd.pos ≤ c.length)
        (fun st _ => c.length - st.fd.pos) (fun st t h => tailTurn_wp hn hnul hR hdata h)
        (Nat.lt_of_le_of_lt (Nat.sub_le _ _) hturns) ⟨hstart, rfl, Nat.zero_le _⟩) (fun r s1 h1 => ?_) fun _ he => he
      obtain ⟨st, err⟩ := r
      obtain ⟨rfl, hinv⟩ := h1
      dsimp only
      refine wp_ite_call (tailLast_wp hn hR hinv) fun st2 s2 h2 => ?_
      obtain ⟨henv2, hring, hcount⟩ := h2
      have hstartIdx : (if st2.count > n then st2.count.tmod n else 0 : Int) = (ringStart n (tailRecords c).length : Nat) := by
        rw [hcount]
        unfold ringStart
        by_cases hlt : n < (tailRecords c).length
        · rw [if_pos (by omega), if_pos hlt, Int.ofNat_tmod]
        · rw [if_neg (by omega), if_neg hlt]
          rfl
      have hlimit : (if st2.count > n then (n : Int) else st2.count).toNat = (lastOf n (tailRecords c)).length := by
        have hlen : (lastOf n (tailRecords c)).length = (tailRecords c).length - ((tailRecords c).length - n) := List.length_drop
        rw [hcount, hlen]
        split <;> omega
      rw [hstartIdx, hlimit, wp_bind]
      refine wp_mono (tailPrint_wp hn hring (fun x hx h0 => hnul (subset_of_mem_records hx h0)) hR (Nat.zero_add _) ?_ henv2.fs
        henv2.writes) (fun _ s3 h3 => ⟨rfl, h3⟩) fun _ he => he
      rw [henv2.out, List.take_zero, List.flatten_nil, List.append_nil]
  obtain ⟨v, s', hrun, rfl, hout⟩ := exists_of_wp hspec
  exact ⟨s', hrun, hout, fun hlines => by rw [hout, tailRecords_eq_lines hlines]⟩

/-- The last two of three lines, read a byte at a time: the ring has wrapped. -/
theorem tail_prints_bytewise :
    linesFile.content [97] = some threeLines ∧ (∀ d, d ≠ .reads → NoError d (willing linesFile bytewise)) ∧
      NoError .reads (willing linesFile bytewise) ∧ (tailRecords threeLines).length = 3 ∧
      ∃ s', dumpTail 7 2 [97] (willing linesFile bytewise) = .ok (0, s') ∧ s'.stdout = [50, NL, 51, NL] := by
  have hok : ∀ d, d ≠ .reads → NoError d (willing linesFile bytewise) := willing_ok _ _
  have hreads : NoError .reads (willing linesFile bytewise) := willing_bytewise _
  have hfile : linesFile.content [97] = some threeLines := by decide
  obtain ⟨s', hrun, hout, -⟩ := tail_prints _ [97] threeLines 2 7 (by decide) hfile (by decide) (by decide) (hok _ (by decide))
    (hok _ (by decide)) hreads (hok _ (by decide)) (by decide)
  exact ⟨hfile, hok, hreads, by decide, s', hrun, hout.trans (by decide)⟩

end OsLab.Posix
