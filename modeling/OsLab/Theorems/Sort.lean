import OsLab.Lemmas.Sort

/-!
# custom_sort

The strings of the program are the lines of the file, but nothing ends the last one when the file does not end with a newline: it goes on
into memory that has not been written (`sort_reads_inside_iff`). With a newline at the end the program sorts (`sort_sorts`).
-/

namespace OsLab.Posix

open Cmd

/-- Every line of the file has an end in it: a newline, or a zero byte. -/
def Ended (c : Bytes) : Prop := ∀ l ∈ lines c, NL ∈ l ∨ 0 ∈ l

/-- The strings that the comparators and `printf` are given end inside the bytes that have been read. -/
def ReadsInside (turns : Nat) (path : Path) (s : Os) : Prop :=
  wp (loadLines turns path)
    (fun r _ => ∀ dataLen st, r = .ok (dataLen, st) → ∀ p ∈ st.lines, 0 ∈ (st.data.take dataLen).drop p) (fun _ => False) s

/-- `custom_sort` returns 0 and prints `out`. -/
def SortPrints (qsort : Sorter Nat) (strcmp : Strcmp) (turns : Nat) (args : List Bytes) (s : Os) (out : Bytes) : Prop :=
  wp (sort qsort strcmp turns args) (fun v s' => v = 0 ∧ s'.stdout = s.stdout ++ out) (fun _ => False) s

/-- The lines of a file without their newlines. -/
def texts (c : Bytes) : List Bytes := (lines c).map List.dropLast

/-- The order that the options ask for. -/
def InOrder (opts : SortArgs) (a b : Bytes) : Prop :=
  match opts.optNumeric, opts.optReverse with
  | false, false => a ≤ b
  | false, true => b ≤ a
  | true, false => strtol a ≤ strtol b
  | true, true => strtol b ≤ strtol a

/-- The byte order, as a function. -/
def byteStrcmp : Strcmp where
  cmp a b := if a < b then -1 else if b < a then 1 else 0
  neg_iff a b := by
    split
    · simpa
    · split <;> simpa
  pos_iff a b := by
    split
    · rename_i h
      simpa using List.le_of_lt h
    · split <;> simpa
  range a b := by
    split
    · decide
    · split <;> decide

namespace SortAux

open PosixAux LinesAux

variable {s : Os} {fs : FileSys} {c l : Bytes} {turns : Nat} {path : Path} {args : List Bytes} {qsort : Sorter Nat} {strcmp : Strcmp}

/-! ## The comparators -/

theorem cmpAlpha_forward (strcmp : Strcmp) : TotalPreorder (cmpAlpha strcmp false) :=
  .of_lt strcmp.neg_iff strcmp.pos_iff fun _ _ _ hab hbc => List.not_lt.mpr (List.le_trans (List.not_lt.mp hab) (List.not_lt.mp hbc))

theorem cmpAlpha_reverse (strcmp : Strcmp) : cmpAlpha strcmp true = fun a b => -cmpAlpha strcmp false a b := by
  funext a b
  have hrange := strcmp.range a b
  exact int32_of_lt (by omega) (by omega)

theorem cmpAlpha_preorder (strcmp : Strcmp) (rev : Bool) : TotalPreorder (cmpAlpha strcmp rev) := by
  cases rev with
  | false => exact cmpAlpha_forward strcmp
  | true =>
    rw [cmpAlpha_reverse]
    exact (cmpAlpha_forward strcmp).neg

theorem cmpNumeric_false (a b : Bytes) :
    cmpNumeric false a b = (if strtol a > strtol b then 1 else 0) - (if strtol a < strtol b then 1 else 0) := rfl

theorem cmpNumeric_neg_iff (a b : Bytes) : cmpNumeric false a b < 0 ↔ strtol a < strtol b := by
  rw [cmpNumeric_false]
  split <;> split <;> omega

theorem cmpNumeric_pos_iff (a b : Bytes) : 0 < cmpNumeric false a b ↔ strtol b < strtol a := by
  rw [cmpNumeric_false]
  split <;> split <;> omega

theorem cmpNumeric_forward : TotalPreorder (cmpNumeric false) :=
  .of_lt cmpNumeric_neg_iff cmpNumeric_pos_iff fun _ _ _ hab hbc => by omega

theorem cmpNumeric_reverse : cmpNumeric true = fun a b => -cmpNumeric false a b := by
  funext a b
  have hrange : -2 ^ 31 ≤ -cmpNumeric false a b ∧ -cmpNumeric false a b < 2 ^ 31 := by
    rw [cmpNumeric_false]
    split <;> split <;> decide
  exact int32_of_lt hrange.1 hrange.2

theorem cmpNumeric_preorder (rev : Bool) : TotalPreorder (cmpNumeric rev) := by
  cases rev with
  | false => exact cmpNumeric_forward
  | true =>
    rw [cmpNumeric_reverse]
    exact cmpNumeric_forward.neg

theorem sortCmp_preorder (strcmp : Strcmp) (opts : SortArgs) : TotalPreorder (sortCmp strcmp opts) := by
  unfold sortCmp
  split
  · exact cmpNumeric_preorder _
  · exact cmpAlpha_preorder _ _

theorem inOrder_of_sortCmp {opts : SortArgs} {a b : Bytes} (h : sortCmp strcmp opts a b ≤ 0) : InOrder opts a b := by
  obtain ⟨rev, num, path⟩ := opts
  have halpha : ∀ x y, cmpAlpha strcmp false x y ≤ 0 → x ≤ y := fun x y hxy => by
    rw [← List.not_lt, ← strcmp.pos_iff]
    exact Int.not_lt.mpr hxy
  have hnum : ∀ x y, cmpNumeric false x y ≤ 0 → strtol x ≤ strtol y := fun x y hxy => by
    rw [← Int.not_lt, ← cmpNumeric_pos_iff]
    exact Int.not_lt.mpr hxy
  cases num <;> cases rev
  · exact halpha a b h
  · have hneg : cmpAlpha strcmp true a b ≤ 0 := h
    rw [cmpAlpha_reverse] at hneg
    refine halpha b a ?_
    have := (cmpAlpha_forward strcmp).swap a b
    dsimp only at hneg
    omega
  · exact hnum a b h
  · have hneg : cmpNumeric true a b ≤ 0 := h
    rw [cmpNumeric_reverse] at hneg
    refine hnum b a ?_
    have := cmpNumeric_forward.swap a b
    dsimp only at hneg
    omega

/-! ## The run -/

theorem sortEnv_of_ready (h : SortReady fs s) : SortEnv s s := ⟨rfl, rfl, h.reads, h.allocs, id⟩

theorem ended_iff : Ended c ↔ ∀ l ∈ lines c, 0 ∈ zeroed l := by simp only [Ended, zero_mem_zeroed]

theorem loadLines_ready (h : SortReady fs s) (hfile : fs.content path = some c) (hc : c ≠ []) (hturns : c.length < turns) :
    wp (loadLines turns path)
      (fun r s' => s'.stdout = s.stdout ∧ ∃ st rest, r = .ok (c.length, st) ∧ Split s c st rest) (fun _ => False) s :=
  loadLines_wp (h.fs_eq ▸ hfile) hc h.opens (sortEnv_of_ready h) hturns

theorem readsInside_iff (h : SortReady fs s) (hfile : fs.content path = some c) (hc : c ≠ []) (hturns : c.length < turns) :
    ReadsInside turns path s ↔ Ended c := by
  obtain ⟨r, s1, hrun, -, st, rest, rfl, hsplit⟩ := exists_of_wp (loadLines_ready h hfile hc hturns)
  have hinside : Split s c ⟨zeroed c, st.lines, 0⟩ [] := ⟨(List.append_nil _).symm, hsplit.lines, fun _ => List.not_mem_nil⟩
  have htake : st.data.take c.length = zeroed c := by rw [hsplit.data, List.take_left' (length_zeroed c)]
  have hiff : ReadsInside turns path s ↔ ∀ x ∈ suffixes [] (lines c), 0 ∈ x := by
    unfold ReadsInside
    rw [wp_of_ok hrun, ← suffixes_of_split hinside]
    constructor
    · intro hall x hx
      obtain ⟨p, hp, rfl⟩ := List.mem_map.mp hx
      have := hall _ _ rfl p hp
      rwa [htake] at this
    · rintro hall _ _ heq p hp
      obtain ⟨rfl, rfl⟩ := Prod.mk.inj (Except.ok.inj heq)
      rw [htake]
      exact hall _ (List.mem_map.mpr ⟨p, hp, rfl⟩)
  rw [hiff, ended_iff]
  refine ⟨fun hall l hl => ?_, fun hall => (suffixes_of_ends [] hall).1⟩
  by_contra h0
  obtain ⟨init, hinit⟩ := lines_eq_append hl h0
  have hlast := hall _ (hinit ▸ mem_suffixes_snoc)
  rw [List.append_nil] at hlast
  exact h0 hlast

/-- With an end in every line: the strings are those of the lines, in some order that the comparator allows. -/
theorem sort_wp (qsort : Sorter Nat) (strcmp : Strcmp) (h : SortReady fs s) (hargs : (sortArgs args).path = some path)
    (hfile : fs.content path = some c) (hc : c ≠ [])
    (hended : Ended c) (hturns : c.length < turns) :
    ∃ ts : List Bytes, ts.Perm ((lines c).map fun l => cstr (zeroed l)) ∧
      ts.Pairwise (fun a b => sortCmp strcmp (sortArgs args) a b ≤ 0) ∧
        SortPrints qsort strcmp turns args s (ts.flatMap (· ++ [NL])) := by
  obtain ⟨r, s1, hrun, hout, st, rest, rfl, hsplit⟩ := exists_of_wp (loadLines_ready h hfile hc hturns)
  obtain ⟨hends, hstrings⟩ := suffixes_of_ends rest (ended_iff.mp hended)
  rw [← suffixes_of_split hsplit] at hends hstrings
  have hcmp : TotalPreorder fun p q => sortCmp strcmp (sortArgs args) (cstr (st.data.drop p)) (cstr (st.data.drop q)) :=
    (sortCmp_preorder strcmp (sortArgs args)).comap fun p => cstr (st.data.drop p)
  have hperm := qsort.perm _ st.lines hcmp
  have hsorted := qsort.sorted _ st.lines hcmp
  generalize hps : qsort.sort _ st.lines = ps at hperm hsorted
  have hends' : ∀ x ∈ ps.map (st.data.drop ·), 0 ∈ x := fun x hx => hends x ((hperm.map _).mem_iff.mp hx)
  refine ⟨(ps.map (st.data.drop ·)).map cstr, hstrings ▸ (hperm.map _).map _, ?_, ?_⟩
  · rw [List.map_map, List.pairwise_map]
    exact hsorted
  · unfold SortPrints sort
    dsimp only
    rw [hargs]
    dsimp only
    rw [wp_bind, wp_of_ok hrun]
    dsimp only
    rw [hps]
    refine wp_call (printLines_wp hends') fun _ s2 h2 => ?_
    exact ⟨rfl, h2.trans (by rw [hout])⟩

/-- Without an end in the last line the program may read beyond the block. -/
theorem not_sortPrints (h : SortReady fs s) (hargs : (sortArgs args).path = some path) (hfile : fs.content path = some c) (hc : c ≠ [])
    (hended : ¬ Ended c) (hjunk : ∀ k j, s.junk k j ≠ 0) (hturns : c.length < turns) (out : Bytes) :
    ¬ SortPrints qsort strcmp turns args s out := by
  rw [ended_iff] at hended
  obtain ⟨l, hl, h0⟩ : ∃ l ∈ lines c, 0 ∉ zeroed l := by simpa using hended
  obtain ⟨init, hinit⟩ := lines_eq_append hl h0
  obtain ⟨r, s1, hrun, -, st, rest, rfl, hsplit⟩ := exists_of_wp (loadLines_ready h hfile hc hturns)
  have hmem : zeroed l ++ rest ∈ st.lines.map (st.data.drop ·) := by
    rw [suffixes_of_split hsplit, hinit]
    exact mem_suffixes_snoc
  have hno : 0 ∉ zeroed l ++ rest := fun hz => by
    rcases List.mem_append.mp hz with hz | hz
    · exact h0 hz
    · exact hsplit.junk hjunk hz
  have hperm := qsort.perm _ st.lines
    ((sortCmp_preorder strcmp (sortArgs args)).comap fun p => cstr (st.data.drop p))
  unfold SortPrints sort
  dsimp only
  rw [hargs]
  dsimp only
  rw [wp_bind, wp_of_ok hrun]
  dsimp only
  rw [wp_bind]
  exact not_wp_printLines ((hperm.map _).mem_iff.mpr hmem) hno

/-- In a file without zero bytes that ends with a newline every line ends with one. -/
theorem endsLine_of_getLast (hend : c.getLast? = some NL) (hl : l ∈ lines c) : l.getLast? = some NL := by
  by_contra hne
  obtain ⟨init, hinit⟩ : ∃ init, lines c = init ++ [l] := recordsFrom_eq_append hl (by simpa [endsLine] using hne)
  have hflat : (lines c).flatten = c := flatten_recordsFrom
  have hsplit : c = init.flatten ++ l := by
    rw [← hflat, hinit, List.flatten_append, List.flatten_singleton]
  rw [hsplit, List.getLast?_append_of_ne_nil _ (ne_nil_of_mem_recordsFrom hl)] at hend
  exact hne hend

theorem cstr_zeroed (hl : l ∈ lines c) (hend : l.getLast? = some NL) (hnul : 0 ∉ c) : cstr (zeroed l) = l.dropLast := by
  obtain ⟨t, rfl⟩ := List.getLast?_eq_some_iff.mp hend
  have hnl : NL ∉ t := by
    have htake := not_mem_take_of_mem_lines hl (show t.length < (t ++ [NL]).length by simp)
    rwa [List.take_left] at htake
  have h0 : 0 ∉ t := fun hmem => hnul (subset_of_mem_records hl (List.mem_append_left _ hmem))
  have hz : zeroed t = t := (List.map_congr_left fun b hb => if_neg fun h : b = NL => hnl (h ▸ hb)).trans (List.map_id' t)
  rw [zeroed_append, hz, List.dropLast_concat]
  exact cstr_append_zero h0

end SortAux

open PosixAux LinesAux SortAux

/-- For every non-empty file, all arguments and every choice of `qsort` and `strcmp`: over all short reads and all contents of memory, the
strings end inside what has been read if and only if every line of the file has a newline or a zero byte in it; and exactly then any two
runs print the same lines. -/
theorem sort_reads_inside_iff (qsort : Sorter Nat) (strcmp : Strcmp) (args : List Bytes) (path : Path) (fs : FileSys) (c : Bytes)
    (hargs : (sortArgs args).path = some path) (hfile : fs.content path = some c) (hc : c ≠ []) :
    ((∀ s turns, SortReady fs s → c.length < turns → ReadsInside turns path s) ↔ Ended c) ∧
      ((∀ s s' turns, SortReady fs s → SortReady fs s' → c.length < turns →
        ∃ out out', SortPrints qsort strcmp turns args s out ∧ SortPrints qsort strcmp turns args s' out' ∧
          (lines out).Perm (lines out')) ↔ Ended c) := by
  have hready : ∀ junk, SortReady fs { willing fs bytewise with junk := junk } := fun junk =>
    ⟨rfl, willing_ok fs bytewise .opens (by decide), willing_bytewise fs, willing_ok fs bytewise .allocs (by decide)⟩
  constructor
  · refine ⟨fun hall => ?_, fun hended s turns h hturns => (readsInside_iff h hfile hc hturns).mpr hended⟩
    exact (readsInside_iff (hready _) hfile hc (Nat.lt_succ_self _)).mp (hall _ _ (hready fun _ _ => 0) (Nat.lt_succ_self _))
  · constructor
    · intro hall
      by_contra hended
      -- with no zero in memory there is nothing to end the last string
      obtain ⟨out, -, hprints, -⟩ := hall _ _ _ (hready fun _ _ => 65) (hready fun _ _ => 65) (Nat.lt_succ_self _)
      exact not_sortPrints (hready _) hargs hfile hc hended (fun _ _ => (by decide : (65 : UInt8) ≠ 0))
        (Nat.lt_succ_self _) out hprints
    · intro hended s s' turns h h' hturns
      obtain ⟨ts, hperm, -, hprints⟩ := sort_wp qsort strcmp h hargs hfile hc hended hturns
      obtain ⟨ts', hperm', -, hprints'⟩ := sort_wp qsort strcmp h' hargs hfile hc hended hturns
      refine ⟨_, _, hprints, hprints', ?_⟩
      have hnl : ∀ ts : List Bytes, ts.Perm ((lines c).map fun l => cstr (zeroed l)) → ∀ t ∈ ts, NL ∉ t := by
        intro ts hts t ht hmem
        obtain ⟨l, -, rfl⟩ := List.mem_map.mp (hts.mem_iff.mp ht)
        exact newline_not_mem_zeroed l ((List.takeWhile_sublist _).subset hmem)
      rw [lines_flatMap (hnl ts hperm), lines_flatMap (hnl ts' hperm')]
      exact (hperm.trans hperm'.symm).map _

/-- The file "hi", which has no end. -/
theorem sort_reads_inside_iff_twoFiles :
    (sortArgs [[97]]).path = some [97] ∧ twoFiles.content [97] = some [104, 105] ∧
      ((∀ s turns, SortReady twoFiles s → 2 < turns → ReadsInside turns [97] s) ↔ Ended [104, 105]) ∧
      ((∀ s s' turns, SortReady twoFiles s → SortReady twoFiles s' → 2 < turns →
        ∃ out out', SortPrints (insertionSorter Nat) byteStrcmp turns [[97]] s out ∧
          SortPrints (insertionSorter Nat) byteStrcmp turns [[97]] s' out' ∧ (lines out).Perm (lines out')) ↔ Ended [104, 105]) :=
  ⟨by decide, by decide, sort_reads_inside_iff _ _ [[97]] [97] twoFiles [104, 105] (by decide) (by decide) nofun⟩

/-- The file "hi" is printed as "hi" where memory is zero, and as "hiA" where the byte after it is an 'A'. -/
theorem sort_prints_memory :
    SortPrints (insertionSorter Nat) byteStrcmp 3 [[97]] (willing twoFiles bytewise) (ascii "hi\n") ∧
      SortPrints (insertionSorter Nat) byteStrcmp 3 [[97]]
        { willing twoFiles bytewise with junk := fun _ j => if j = 2 then 65 else 0 } (ascii "hiA\n") := by
  unfold SortPrints
  constructor <;> decide +kernel

/-- For every file without zero bytes that ends with a newline, every way in which `read` splits it and all arguments: the comparators
are total preorders, and the program prints the lines of the file, each as often as it is there, in the order that the options ask for. -/
theorem sort_sorts (qsort : Sorter Nat) (strcmp : Strcmp) (args : List Bytes) (path : Path) (c : Bytes) (s : Os) (turns : Nat)
    (hargs : (sortArgs args).path = some path) (hfile : s.fs.content path = some c) (hnul : 0 ∉ c) (hend : c.getLast? = some NL)
    (hopen : NoError .opens s) (hreads : NoError .reads s) (halloc : NoError .allocs s) (hturns : c.length < turns) :
    (∀ rev, TotalPreorder (cmpAlpha strcmp rev)) ∧ (∀ rev, TotalPreorder (cmpNumeric rev)) ∧
      ∃ (ts : List Bytes) (s' : Os), sort qsort strcmp turns args s = .ok (0, s') ∧ s'.stdout = s.stdout ++ ts.flatMap (· ++ [NL]) ∧
        ts.Perm (texts c) ∧ ts.Pairwise (InOrder (sortArgs args)) := by
  refine ⟨cmpAlpha_preorder strcmp, cmpNumeric_preorder, ?_⟩
  have hc : c ≠ [] := fun h => by
    rw [h] at hend
    cases hend
  have hended : Ended c := fun l hl => .inl (List.mem_of_getLast? (endsLine_of_getLast hend hl))
  obtain ⟨ts, hperm, hsorted, hprints⟩ := sort_wp qsort strcmp ⟨rfl, hopen, hreads, halloc⟩ hargs hfile hc hended hturns
  obtain ⟨v, s', hrun, rfl, hout⟩ := exists_of_wp hprints
  refine ⟨ts, s', hrun, hout, ?_, hsorted.imp inOrder_of_sortCmp⟩
  have htexts : ((lines c).map fun l => cstr (zeroed l)) = texts c :=
    List.map_congr_left fun l hl => cstr_zeroed hl (endsLine_of_getLast hend hl) hnul
  exact htexts ▸ hperm

/-- A file with the lines "b" and "a", in reverse order. -/
theorem sort_sorts_twoLines :
    (twoFiles.setData 0 [98, NL, 97, NL]).content [97] = some [98, NL, 97, NL] ∧
      NoError .reads (willing (twoFiles.setData 0 [98, NL, 97, NL]) bytewise) ∧
      (∀ rev, TotalPreorder (cmpAlpha byteStrcmp rev)) ∧ (∀ rev, TotalPreorder (cmpNumeric rev)) ∧
      ∃ (ts : List Bytes) (s' : Os),
        sort (insertionSorter Nat) byteStrcmp 5 [ascii "-r", [97]] (willing (twoFiles.setData 0 [98, NL, 97, NL]) bytewise) = .ok (0, s') ∧
          s'.stdout = ts.flatMap (· ++ [NL]) ∧ ts.Perm (texts [98, NL, 97, NL]) ∧
          ts.Pairwise (InOrder (sortArgs [ascii "-r", [97]])) := by
  have hok : ∀ d, d ≠ .reads → NoError d (willing (twoFiles.setData 0 [98, NL, 97, NL]) bytewise) := willing_ok _ _
  have hreads : NoError .reads (willing (twoFiles.setData 0 [98, NL, 97, NL]) bytewise) := willing_bytewise _
  have hfile : (twoFiles.setData 0 [98, NL, 97, NL]).content [97] = some [98, NL, 97, NL] := content_setData _ rfl
  exact ⟨hfile, hreads, sort_sorts _ _ _ [97] [98, NL, 97, NL] _ 5 (by decide) hfile (by decide) (by decide) (hok _ (by decide)) hreads
    (hok _ (by decide)) (by decide)⟩

end OsLab.Posix
