import OsLab.LineTools
import OsLab.Lemmas.Posix
import OsLab.Lemmas.Lines

/-!
# custom_grep

`fgets` cuts a line that does not fit into `line`, and `custom_grep` takes each piece for a line: it looks for the pattern in the pieces,
prints pieces and counts them (`grep_wp`). So it prints the lines with the pattern, for every pattern, exactly when every line
fits, and when
they can be counted in an `int` (`grep_exact_iff`).
-/

namespace OsLab.Posix

open Cmd

/-- What is printed of the lines `ls`, numbered from `n` on: those that contain the pattern, each after its number as `num` has it. -/
def grepReport (num : Nat → Int) (pattern : Bytes) (ls : List Bytes) (n : Nat) : Bytes :=
  ((ls.zipIdx n).filter fun p => Contains p.1 pattern).flatMap fun p => decimal (num p.2) ++ ascii ": " ++ p.1

/-- The pieces that `fgets` hands over. -/
def grepRecords (c : Bytes) : List Bytes := records (endsBy endsLine (MAX_LINE - 1)) c

/-- `custom_grep` prints the lines with the pattern, each whole and after its number, and returns 0 when there is one. -/
def GrepExact (turns : Nat) (pattern path c : Bytes) (s : Os) : Prop :=
  wp (grep turns [pattern, path])
    (fun v s' => s'.stdout = s.stdout ++ grepReport Int.ofNat pattern (lines c) 1 ∧ (v = 0 ↔ ∃ l ∈ lines c, Contains l pattern))
    (fun _ => False) s

namespace GrepAux

open PosixAux LinesAux

variable {s s' s0 : Os} {c pattern path l : Bytes} {ls ls' : List Bytes} {num num' : Nat → Int} {n turns : Nat} {st : GrepSt} {b : UInt8}

/-! ## Reports -/

theorem grepReport_append :
    grepReport num pattern (ls ++ ls') n = grepReport num pattern ls n ++ grepReport num pattern ls' (n + ls.length) := by
  simp [grepReport, List.zipIdx_append]

theorem grepReport_singleton_pos (h : Contains l pattern) : grepReport num pattern [l] n = decimal (num n) ++ ascii ": " ++ l := by
  simp [grepReport, h]

theorem grepReport_singleton_neg (h : ¬ Contains l pattern) : grepReport num pattern [l] n = [] := by
  simp [grepReport, h]

theorem mem_grepReport :
    b ∈ grepReport num pattern ls n ↔
      ∃ p ∈ ls.zipIdx n, Contains p.1 pattern ∧ (b ∈ decimal (num p.2) ∨ b ∈ ascii ": " ∨ b ∈ p.1) := by
  simp only [grepReport, List.mem_flatMap, List.mem_filter, decide_eq_true_eq, List.mem_append, or_assoc, and_assoc]

/-- Reports with the same numbers are the same. -/
theorem grepReport_congr (h : ∀ i, n ≤ i → i < n + ls.length → num i = num' i) :
    grepReport num pattern ls n = grepReport num' pattern ls n := by
  refine List.flatMap_congr fun p hp => ?_
  obtain ⟨l, i⟩ := p
  obtain ⟨hge, hlt, -⟩ := List.mem_zipIdx (List.mem_filter.mp hp).1
  rw [h i hge hlt]

theorem grepReport_eq_nil (h : ∀ l ∈ ls, ¬ Contains l pattern) : grepReport num pattern ls n = [] := by
  have hfilter : ((ls.zipIdx n).filter fun p => Contains p.1 pattern) = [] := by
    refine List.filter_eq_nil_iff.mpr fun p hp => ?_
    simpa using h p.1 (List.fst_mem_of_mem_zipIdx hp)
  rw [grepReport, hfilter, List.flatMap_nil]

/-! ## Numbers -/

theorem mem_decimalNat (h : b ∈ decimalNat n) : 48 ≤ b ∧ b ≤ 57 := by
  unfold decimalNat at h
  split at h
  · rw [List.mem_singleton.mp h]
    decide
  · obtain ⟨d, hd, rfl⟩ := List.mem_map.mp h
    have hlt : d < 10 := Nat.digits_lt_base (by decide) (List.mem_reverse.mp hd)
    have hnat : (UInt8.ofNat (48 + d)).toNat = 48 + d := by
      rw [UInt8.toNat_ofNat']
      omega
    constructor <;> rw [UInt8.le_iff_toNat_le, hnat]
    · exact Nat.le_add_right 48 d
    · exact Nat.add_le_add_left (Nat.le_of_lt_succ hlt) 48

theorem mem_decimal {i : Int} (h : b ∈ decimal i) : b = 45 ∨ 48 ≤ b := by
  unfold decimal at h
  split at h
  · rcases List.mem_cons.mp h with h | h
    · exact .inl h
    · exact .inr (mem_decimalNat h).1
  · exact .inr (mem_decimalNat h).1

theorem newline_not_mem_decimal (i : Int) : NL ∉ decimal i := fun h => by
  rcases mem_decimal h with h | h <;> exact absurd h (by decide)

theorem decimalNat_ne_nil : decimalNat n ≠ [] := by
  unfold decimalNat
  split
  · nofun
  · rename_i hn
    simpa using Nat.digits_ne_nil_iff_ne_zero.mpr hn

/-- A number below zero and one that is not are printed differently, whatever follows. -/
theorem decimal_append_ne {i j : Int} {u v : Bytes} (hi : i < 0) (hj : 0 ≤ j) : decimal i ++ u ≠ decimal j ++ v := by
  unfold decimal
  rw [if_pos hi, if_neg (by omega)]
  obtain ⟨b, bs, hb⟩ := List.exists_cons_of_ne_nil (decimalNat_ne_nil (n := j.natAbs))
  have hmem : b ∈ decimalNat j.natAbs := by rw [hb]; exact List.mem_cons_self
  intro heq
  rw [hb, List.cons_append, List.cons_append] at heq
  have hb45 : (45 : UInt8) = b := (List.cons.inj heq).1
  exact absurd (hb45 ▸ (mem_decimalNat hmem).1) (by decide)

/-! ## The run -/

/-- The pieces `done` have been gone through. -/
structure GrepInv (s0 : Os) (c pattern : Bytes) (st : GrepSt) (s : Os) : Prop where
  ex : ∃ done, grepRecords c = done ++ grepRecords st.rest ∧ st.lineno = int32 done.length ∧
    st.found = int32 (done.filter fun l => Contains l pattern).length ∧ s.stdout = s0.stdout ++ grepReport (fun i => int32 i) pattern done 1

/-- The loop is over: the result is `matches`. -/
structure GrepDone (s0 : Os) (c pattern : Bytes) (found : Int) (s : Os) : Prop where
  found : found = int32 ((grepRecords c).filter fun l => Contains l pattern).length
  out : s.stdout = s0.stdout ++ grepReport (fun i => int32 i) pattern (grepRecords c) 1

theorem grepTurn_wp (hnul : (0 : UInt8) ∉ c) (h : GrepInv s0 c pattern st s) :
    wp (grepTurn pattern st)
      (Cmd.Turn.Meets (fun st' s' => GrepInv s0 c pattern st' s' ∧ st'.rest.length < st.rest.length) (GrepDone s0 c pattern))
      (fun _ => False) s := by
  obtain ⟨done, hrec, hlineno, hfound, hout⟩ := h.ex
  unfold grepTurn
  cases hget : fgets MAX_LINE st.rest with
  | none =>
    have hrest : st.rest = [] := by
      unfold fgets at hget
      split at hget
      · assumption
      · cases hget
    rw [hrest, show grepRecords [] = [] from rfl, List.append_nil] at hrec
    subst hrec
    exact ⟨hfound, hout⟩
  | some r =>
    obtain ⟨line, rest⟩ := r
    obtain ⟨hcons, hlt⟩ := records_of_fgets (by decide) hget
    have hrec' : grepRecords c = (done ++ [line]) ++ grepRecords rest := by
      rw [hrec, List.append_assoc]
      exact congrArg (done ++ ·) hcons
    have hline : cstr line = line :=
      cstr_of_not_mem fun h0 => hnul (subset_of_mem_records (show _ ∈ grepRecords c by rw [hrec']; simp) h0)
    have hno : int32 (st.lineno + 1) = int32 ((done ++ [line]).length : Nat) := by
      rw [hlineno, int32_add, List.length_append, List.length_singleton]
      rfl
    dsimp only
    rw [hline, wp_ite]
    refine ⟨fun hin => ?_, fun hout' => ?_⟩
    · rw [wp_bind, wp_print, wp_pure]
      refine ⟨⟨done ++ [line], hrec', hno, ?_, ?_⟩, hlt⟩
      · dsimp only
        rw [hfound, int32_add, List.filter_append, List.length_append]
        simp [hin]
      · dsimp only
        rw [hout, hno, grepReport_append, grepReport_singleton_pos hin, List.append_assoc, List.length_append, List.length_singleton,
          Nat.add_comm done.length]
    · refine ⟨⟨done ++ [line], hrec', hno, ?_, ?_⟩, hlt⟩
      · dsimp only
        rw [hfound, List.filter_append]
        simp [hout']
      · rw [hout, grepReport_append, grepReport_singleton_neg hout', List.append_nil]

theorem grepInv_start : GrepInv s0 c pattern ⟨c, 0, 0⟩ (s0.popped .opens) := by
  refine ⟨[], (List.nil_append _).symm, (by decide : (0 : Int) = int32 (0 : Nat)), (by decide : (0 : Int) = int32 (0 : Nat)), ?_⟩
  rw [popped_stdout, grepReport_eq_nil fun l hl => absurd hl List.not_mem_nil, List.append_nil]

/-- What `custom_grep` does: it goes by the pieces, and counts in `int`. -/
theorem grep_wp (pattern : Bytes) (hfile : s.fs.content path = some c) (hnul : (0 : UInt8) ∉ c) (hopen : NoError .opens s)
    (hturns : c.length < turns) :
    wp (grep turns [pattern, path])
      (fun v s' => s'.stdout = s.stdout ++ grepReport (fun i => int32 i) pattern (grepRecords c) 1 ∧
        v = if int32 ((grepRecords c).filter fun l => Contains l pattern).length > 0 then 0 else 1)
      (fun _ => False) s := by
  obtain ⟨i, hi, hdata⟩ := Option.map_eq_some_iff.mp hfile
  unfold grep
  rw [wp_bind, wp_openRead]
  refine ⟨fun e he => absurd he (hopen 0 e), fun _ => ?_⟩
  rw [hi]
  dsimp only
  rw [wp_bind, wp_get, popped_fs, hdata]
  refine wp_call (wp_loop_lt (I := fun st s' => GrepInv s c pattern st s') (fun st _ => st.rest.length)
    (fun st t h => grepTurn_wp hnul h) hturns grepInv_start) fun found s1 h1 => ?_
  rw [h1.found]
  exact ⟨h1.out, rfl⟩

/-! ## When the pieces are not the lines -/

theorem length_le_of_mem_grepRecords (hl : l ∈ grepRecords c) : l.length ≤ 4095 := length_le_of_mem_recordsFrom (by decide) hl

theorem grepRecords_eq_lines (h : ∀ l ∈ lines c, l.length ≤ 4095) : grepRecords c = lines c := recordsFrom_endsBy h

theorem mem_grepReport_of_mem (hl : l ∈ ls) (hin : Contains l pattern) (hb : b ∈ l) : b ∈ grepReport num pattern ls n := by
  obtain ⟨j, hj, rfl⟩ := List.mem_iff_getElem.mp hl
  have hzip : (ls[j], n + j) ∈ ls.zipIdx n := by
    rw [List.mem_zipIdx_iff_le_and_getElem?_sub]
    exact ⟨Nat.le_add_right n j, by rw [Nat.add_sub_cancel_left, List.getElem?_eq_getElem hj]⟩
  exact mem_grepReport.mpr ⟨_, hzip, hin, .inr (.inr hb)⟩

/-- A line that does not fit makes the report wrong for some pattern. -/
theorem exists_pattern_of_long (hl : l ∈ lines c) (hlong : 4095 < l.length) :
    ∃ pattern, NL ∉ pattern ∧ grepReport num pattern (grepRecords c) 1 ≠ grepReport num' pattern (lines c) 1 := by
  by_cases hnl : NL ∈ l.take 4096
  · -- the newline does not fit: what is printed of this line ends without it
    have hend : l.length = 4096 := by
      by_contra hne
      exact not_mem_take_of_mem_lines hl (by omega) hnl
    rw [List.take_of_length_le (by omega)] at hnl
    refine ⟨l.take 4095, not_mem_take_of_mem_lines hl hlong, fun heq => ?_⟩
    have hmem : NL ∈ grepReport num' (l.take 4095) (lines c) 1 :=
      mem_grepReport_of_mem hl ( List.take_prefix _ _).isInfix hnl
    rw [← heq] at hmem
    obtain ⟨⟨q, i⟩, hq, (hin : Contains q _), (hb : _ ∨ _ ∨ NL ∈ q)⟩ := mem_grepReport.mp hmem
    have hlen : q.length ≤ (l.take 4095).length := by
      have hle : q.length ≤ 4095 := length_le_of_mem_grepRecords (List.fst_mem_of_mem_zipIdx hq)
      rw [List.length_take]
      omega
    have hqeq : l.take 4095 = q := hin.eq_of_length_le hlen
    rcases hb with hb | hb | hb
    · exact newline_not_mem_decimal _ hb
    · exact absurd hb (by decide)
    · exact not_mem_take_of_mem_lines hl hlong (hqeq ▸ hb)
  · -- no piece has room for these bytes
    refine ⟨l.take 4096, hnl, fun heq => ?_⟩
    have hnil : grepReport num (l.take 4096) (grepRecords c) 1 = [] := by
      refine grepReport_eq_nil fun q hq hin => ?_
      have hle := length_le_of_mem_grepRecords hq
      have hge := hin.length_le
      rw [List.length_take] at hge
      omega
    obtain ⟨b, hb⟩ : ∃ b, b ∈ l := List.exists_mem_of_length_pos (by omega)
    have hmem : b ∈ grepReport num' (l.take 4096) (lines c) 1 := mem_grepReport_of_mem hl ( List.take_prefix _ _).isInfix hb
    rw [← heq, hnil] at hmem
    cases hmem

/-- The line with the number `2 ^ 31` is printed with another one. -/
theorem grepReport_ne_of_many (h : 2 ^ 31 ≤ ls.length) : grepReport (fun i => int32 i) [] ls 1 ≠ grepReport Int.ofNat [] ls 1 := by
  obtain ⟨l, rest, hsplit⟩ : ∃ l rest, ls.drop (2 ^ 31 - 1) = l :: rest :=
    List.exists_cons_of_ne_nil fun hnil => by
      have := List.drop_eq_nil_iff.mp hnil
      omega
  have hls : ls = ls.take (2 ^ 31 - 1) ++ ([l] ++ rest) := by
    rw [List.singleton_append, ← hsplit, List.take_append_drop]
  have hlen : (ls.take (2 ^ 31 - 1)).length = 2 ^ 31 - 1 := by
    rw [List.length_take]
    omega
  have hsame : grepReport (fun i => int32 i) [] (ls.take (2 ^ 31 - 1)) 1 = grepReport Int.ofNat [] (ls.take (2 ^ 31 - 1)) 1 := by
    refine grepReport_congr fun i _ hi => ?_
    rw [hlen] at hi
    exact int32_of_lt (by omega) (by omega)
  have hin : Contains l [] := List.nil_infix
  rw [hls, grepReport_append, grepReport_append, hsame, grepReport_append, grepReport_append, grepReport_singleton_pos hin,
    grepReport_singleton_pos hin, hlen]
  intro heq
  have htail := List.append_cancel_left heq
  simp only [List.append_assoc] at htail
  exact decimal_append_ne (by decide) (by decide) htail

end GrepAux

open PosixAux LinesAux GrepAux

/-- For every file without zero bytes, however it ends: `custom_grep` prints exactly the lines with the pattern, for every pattern without a
newline, if and only if every line fits into `line` and the number of lines fits into an `int`. -/
theorem grep_exact_iff (s : Os) (path c : Bytes) (hfile : s.fs.content path = some c) (hnul : (0 : UInt8) ∉ c)
    (hopen : NoError .opens s) :
    (∀ pattern turns, NL ∉ pattern → c.length < turns → GrepExact turns pattern path c s) ↔
      (∀ l ∈ lines c, l.length ≤ 4095) ∧ (lines c).length < 2 ^ 31 := by
  -- what is printed is a function of the file: two conditions on it can be compared
  have hout : ∀ pattern, GrepExact (c.length + 1) pattern path c s →
      grepReport (fun i => int32 i) pattern (grepRecords c) 1 = grepReport Int.ofNat pattern (lines c) 1 := by
    intro pattern hexact
    obtain ⟨v, s', hrun, hgot, -⟩ := exists_of_wp (grep_wp pattern hfile hnul hopen (Nat.lt_succ_self _))
    have hwant := ((wp_of_ok hrun).mp hexact).1
    rw [hgot] at hwant
    exact List.append_cancel_left hwant
  constructor
  · intro hall
    have hfits : ∀ l ∈ lines c, l.length ≤ 4095 := by
      intro l hl
      by_contra hlong
      obtain ⟨pattern, hnl, hne⟩ := exists_pattern_of_long hl (Nat.lt_of_not_le hlong)
      exact hne (hout pattern (hall pattern _ hnl (Nat.lt_succ_self _)))
    refine ⟨hfits, ?_⟩
    by_contra hmany
    have heq := hout [] (hall [] _ List.not_mem_nil (Nat.lt_succ_self _))
    rw [grepRecords_eq_lines hfits] at heq
    exact grepReport_ne_of_many (Nat.le_of_not_lt hmany) heq
  · rintro ⟨hfits, hfew⟩ pattern turns - hturns
    refine wp_mono (grep_wp pattern hfile hnul hopen hturns) (fun v s' h => ?_) fun _ he => he
    obtain ⟨hgot, hv⟩ := h
    rw [grepRecords_eq_lines hfits] at hgot hv
    constructor
    · rw [hgot]
      refine congrArg (s.stdout ++ ·) (grepReport_congr fun i _ hi => ?_)
      exact int32_of_lt (by omega) (by omega)
    · have hle : ((lines c).filter fun l => Contains l pattern).length ≤ (lines c).length := List.length_filter_le _ _
      rw [int32_of_lt (by omega) (by omega)] at hv
      rw [hv]
      have hpos : 0 < ((lines c).filter fun l => Contains l pattern).length ↔ ∃ l ∈ lines c, Contains l pattern := by
        simp [List.length_pos_iff_exists_mem]
      rw [← hpos]
      split <;> omega

/-- Three lines, searched for any pattern. -/
theorem grep_exact_iff_threeLines :
    linesFile.content [97] = some threeLines ∧ NoError .opens (willing linesFile bytewise) ∧ (lines threeLines).length = 3 ∧
      ∀ pattern turns, NL ∉ pattern → 6 < turns → GrepExact turns pattern [97] threeLines (willing linesFile bytewise) := by
  have hopen : NoError .opens (willing linesFile bytewise) := willing_ok _ _ _ (by decide)
  have hfile : linesFile.content [97] = some threeLines := by decide
  exact ⟨hfile, hopen, by decide, (grep_exact_iff _ [97] threeLines hfile (by decide) hopen).mpr ⟨by decide, by decide⟩⟩

/-- A file with one line of 4097 bytes: 4095 times 'a', then 'b' and the newline. -/
def longLine : Bytes := List.replicate 4095 97 ++ [98, NL]

namespace GrepAux

variable {s : Os} {path as : Bytes}

theorem lines_append_two (hnl : NL ∉ as) : lines (as ++ [98, NL]) = [as ++ [98, NL]] := by
  unfold lines records
  rw [recordsFrom_endsLine_append hnl, List.nil_append, recordsFrom_goes (endsLine_append _), recordsFrom_ends (endsLine_append _),
    List.append_assoc]
  rfl

theorem grepRecords_append_two (hnl : NL ∉ as) (hlen : as.length = 4095) : grepRecords (as ++ [98, NL]) = [as, [98, NL]] := by
  have hfirst : takeLine 4095 (as ++ [98, NL]) = as := by
    have h : takeLine (as.length + 0) (as ++ [98, NL]) = as ++ takeLine 0 [98, NL] := takeLine_append hnl
    rw [hlen, Nat.add_zero] at h
    rw [h, takeLine, List.append_nil]
  have hcut : grepRecords (as ++ [98, NL]) = takeLine 4095 (as ++ [98, NL]) ::
      grepRecords ((as ++ [98, NL]).drop (takeLine 4095 (as ++ [98, NL])).length) :=
    recordsFrom_takeLine (by decide) (List.append_ne_nil_of_right_ne_nil _ (fun he => by cases he))
  rw [hcut, hfirst, List.drop_left, show grepRecords [98, NL] = [[98, NL]] by decide]

/-- The two pieces of such a file and a pattern that is in the second. -/
theorem grep_append_two (hopen : NoError .opens s) (hs : s.fs.content path = some (as ++ [98, NL])) (hlen : as.length = 4095)
    (has : ∀ b ∈ as, b = 97) :
    ∃ s', grep 4098 [[98], path] s = .ok (0, s') ∧ s'.stdout = s.stdout ++ ascii "2: b\n" := by
  have hnl : NL ∉ as := fun h => absurd (has _ h) (by decide)
  have hnul : (0 : UInt8) ∉ as ++ [98, NL] := fun h => by
    rcases List.mem_append.mp h with h | h
    · exact absurd (has _ h) (by decide)
    · exact absurd h (by decide)
  have hno : ¬ Contains as [98] := fun h => absurd (has _ (h.subset List.mem_cons_self)) (by decide)
  have hturns : (as ++ [98, NL]).length < 4098 := by
    rw [List.length_append, hlen]
    decide
  obtain ⟨v, s', hrun, hout, hv⟩ := exists_of_wp (grep_wp [98] hs hnul hopen hturns)
  rw [grepRecords_append_two hnl hlen] at hout hv
  refine ⟨s', ?_, ?_⟩
  · rw [List.filter_cons_of_neg (by simpa using hno)] at hv
    have hv0 : v = 0 := hv.trans (by decide)
    rw [hrun, hv0]
  · rw [hout, show [as, [98, NL]] = [as] ++ [[98, NL]] from rfl, grepReport_append, grepReport_singleton_neg hno, List.length_singleton]
    exact congrArg (s.stdout ++ ·) (by decide)

end GrepAux

/-- The pattern "b" is found in line 2 of a file with one line, and the line is printed without its first 4095 bytes. -/
theorem grep_cuts_line :
    lines longLine = [longLine] ∧
      ∃ s', grep 4098 [[98], [97]] (willing (twoFiles.setData 0 longLine) bytewise) = .ok (0, s') ∧ s'.stdout = ascii "2: b\n" := by
  have hsplit : ∃ as : Bytes, longLine = as ++ [98, NL] ∧ as.length = 4095 ∧ ∀ b ∈ as, b = 97 :=
    ⟨_, rfl, List.length_replicate, fun b => List.eq_of_mem_replicate⟩
  obtain ⟨as, hlong, hlen, has⟩ := hsplit
  have hfile : (willing (twoFiles.setData 0 longLine) bytewise).fs.content [97] = some (as ++ [98, NL]) :=
    (content_setData longLine rfl).trans (congrArg some hlong)
  have hopen : NoError .opens (willing (twoFiles.setData 0 longLine) bytewise) := willing_ok _ _ _ (by decide)
  refine ⟨?_, grep_append_two hopen hfile hlen has⟩
  rw [hlong]
  exact lines_append_two fun h => absurd (has _ h) (by decide)

end OsLab.Posix
