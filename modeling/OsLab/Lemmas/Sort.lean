import OsLab.Sort
import OsLab.Lemmas.Posix
import OsLab.Lemmas.Lines

/-!
# The run of custom_sort

`read_file` comes to a block that starts with the file (`readFile_wp`); after the split its newlines are zeros and the pointers are where
the lines start (`splitLines_wp`). The strings that the program compares and prints are what follows each of these places (`suffixes`).
-/

namespace OsLab.Posix

open Cmd

/-- The bytes after the split: zeros for newlines. -/
def zeroed (c : Bytes) : Bytes := c.map fun b => if b = NL then 0 else b

/-- Where the lines start, when the first one starts at `p`. -/
def offsets : Nat → List Bytes → List Nat
  | _, [] => []
  | p, l :: ls => p :: offsets (p + l.length) ls

/-- What follows each start of a line, to the end of the block. -/
def suffixes (rest : Bytes) : List Bytes → List Bytes
  | [] => []
  | l :: ls => (zeroed l ++ (zeroed ls.flatten ++ rest)) :: suffixes rest ls

/-- The file `fs` is on, and no call fails. -/
structure SortReady (fs : FileSys) (s : Os) : Prop where
  fs_eq : s.fs = fs
  opens : NoError .opens s
  reads : NoError .reads s
  allocs : NoError .allocs s

namespace SortAux

open PosixAux LinesAux

variable {E : Stop → Prop} {s s0 : Os} {fs : FileSys} {c cur l rest data : Bytes} {ls done : List Bytes} {i p n turns : Nat} {path : Path}
  {st : LinesSt}

/-! ## Reading -/

/-- Nothing has been printed since `s0`, and a block of memory has no zeros if that is so for all memory. -/
structure SortEnv (s0 s : Os) : Prop where
  out : s.stdout = s0.stdout
  fs : s.fs = s0.fs
  reads : NoError .reads s
  allocs : NoError .allocs s
  junk : (∀ k j, s0.junk k j ≠ 0) → ∀ k j, s.junk k j ≠ 0

theorem SortEnv.popped (h : SortEnv s0 s) (d : Syscall) : SortEnv s0 (s.popped d) :=
  ⟨h.out, h.fs, noError_popped h.reads d, noError_popped h.allocs d, h.junk⟩

theorem SortEnv.nextJunk (h : SortEnv s0 s) : SortEnv s0 s.nextJunk :=
  ⟨h.out, h.fs, h.reads, h.allocs, fun h0 k j => h.junk h0 (k + 1) j⟩

/-- The first `len` bytes of the file are in the block. -/
structure Holds (s0 : Os) (c : Bytes) (data : Bytes) (len : Nat) : Prop where
  le : len ≤ c.length
  held : data.take len = c.take len
  room : len < data.length
  junk : (∀ k j, s0.junk k j ≠ 0) → 0 ∉ data.drop len

/-- The bytes `bs` have been read into the block. -/
theorem Holds.put {len : Nat} {bs : Bytes} (h : Holds s0 c data len) (hpre : bs <+: c.drop len) (hsize : bs.length ≤ data.length - len) :
    let data' := data.take len ++ bs ++ data.drop (len + bs.length)
    data'.length = data.length ∧ data'.take (len + bs.length) = c.take (len + bs.length) ∧
      data'.drop (len + bs.length) = (data.drop len).drop bs.length := by
  have hroom := h.room
  have hlen : (data.take len ++ bs).length = len + bs.length := by
    rw [List.length_append, List.length_take]
    omega
  refine ⟨?_, ?_, ?_⟩
  · rw [List.length_append, hlen, List.length_drop]
    omega
  · rw [List.take_left' hlen, h.held, List.take_add, ← List.prefix_iff_eq_take.mp hpre]
  · rw [List.drop_left' hlen, List.drop_drop]

theorem not_mem_block {g : Nat → UInt8} (hg : ∀ j, g j ≠ 0) : 0 ∉ block g n := by
  intro hmem
  obtain ⟨j, -, hj⟩ := List.mem_map.mp hmem
  exact hg j hj

/-- In the loop of `read_file`. -/
structure LoadInv (s0 : Os) (c : Bytes) (i : Ino) (st : LoadSt) (s : Os) : Prop where
  env : SortEnv s0 s
  fd : st.fd = ⟨i, st.len⟩
  holds : Holds s0 c st.data st.len

/-- What `read_file` comes to. -/
def Loaded (s0 : Os) (c : Bytes) (r : Option (Bytes × Nat)) (s : Os) : Prop :=
  SortEnv s0 s ∧ ∃ data, r = some (data, c.length) ∧ Holds s0 c data c.length

/-- A turn of the loop reads on, and does not lose what it has. -/
theorem loadTurn_wp {st : LoadSt} (hdata : (s0.fs.inode i).data = c) (h : LoadInv s0 c i st s) :
    wp (loadTurn st)
      (Cmd.Turn.Meets (fun st' s' => LoadInv s0 c i st' s' ∧ c.length - st'.len < c.length - st.len) (Loaded s0 c)) E s := by
  obtain ⟨fd, data, len⟩ := st
  obtain ⟨henv, (rfl : fd = ⟨i, len⟩), hholds⟩ := h
  have hci : (s.fs.inode i).data = c := by rw [henv.fs, hdata]
  have hroom := hholds.room
  unfold loadTurn
  dsimp only at hholds hroom ⊢
  rw [wp_bind]
  refine wp_read_next hci (by omega) hholds.le henv.reads (fun hend => ?_) fun b bs hpre hsize hle => ?_
  · dsimp only at hend
    subst hend
    exact ⟨henv.popped _, data, rfl, hholds⟩
  · dsimp only at hpre hle ⊢
    obtain ⟨hlength, htake, hdrop⟩ := hholds.put hpre hsize
    have hpos : 0 < (b :: bs).length := Nat.zero_lt_succ _
    generalize hdata' : data.take len ++ b :: bs ++ data.drop (len + (b :: bs).length) = data' at *
    generalize hlen' : (b :: bs).length = m at *
    have hclean : (∀ k j, s0.junk k j ≠ 0) → 0 ∉ data'.drop (len + m) := fun h0 hmem =>
      hholds.junk h0 (List.mem_of_mem_drop (hdrop ▸ hmem))
    rw [wp_ite]
    refine ⟨fun hfull => ?_, fun hfull => ?_⟩
    · rw [wp_bind, wp_malloc]
      refine ⟨fun e he => absurd he (noError_popped henv.allocs _ 0 e), fun _ => ?_⟩
      have hblock : (block ((s.popped .reads).junk 0) (data'.length * 2)).length = data'.length * 2 := length_block _ _
      refine ⟨⟨((henv.popped _).popped _).nextJunk, rfl, hle, ?_, ?_, fun h0 => ?_⟩, ?_⟩
      · dsimp only
        rw [List.take_append_of_le_length (Nat.le_of_eq hfull), htake]
      · dsimp only
        rw [List.length_append, List.length_drop, hblock]
        omega
      · dsimp only
        rw [hfull, List.drop_left]
        exact fun hmem => not_mem_block (henv.junk h0 0) (List.mem_of_mem_drop hmem)
      · dsimp only
        omega
    · exact ⟨⟨henv.popped _, rfl, hle, htake, by dsimp only; omega, hclean⟩, by dsimp only; omega⟩

theorem loadInv_start (henv : SortEnv s0 s) (hlen : data.length = LOAD_SIZE) (hjunk : (∀ k j, s0.junk k j ≠ 0) → 0 ∉ data) :
    LoadInv s0 c i ⟨⟨i, 0⟩, data, 0⟩ s :=
  ⟨henv, rfl, Nat.zero_le _, by rw [List.take_zero, List.take_zero], hlen ▸ Nat.zero_lt_succ _, hjunk⟩

/-- The whole file is read. -/
theorem readFile_wp (hfile : s.fs.content path = some c) (hopen : NoError .opens s) (henv : SortEnv s s) (hturns : c.length < turns) :
    wp (readFile turns path) (Loaded s c) (fun _ => False) s := by
  obtain ⟨i, hi, hdata⟩ := Option.map_eq_some_iff.mp hfile
  unfold readFile
  rw [wp_bind, wp_openRead]
  refine ⟨fun e he => absurd he (hopen 0 e), fun _ => ?_⟩
  rw [hi]
  dsimp only
  rw [wp_bind, wp_malloc]
  refine ⟨fun e he => absurd he (noError_popped henv.allocs _ 0 e), fun _ => ?_⟩
  have hlen := length_block ((s.popped .opens).junk 0) LOAD_SIZE
  exact wp_loop_lt (I := LoadInv s c i) (fun st _ => c.length - st.len) (fun st t h => loadTurn_wp hdata h)
    (Nat.lt_of_le_of_lt (Nat.sub_le _ _) hturns)
    (loadInv_start ((henv.popped _).popped _).nextJunk hlen fun h0 => not_mem_block (h0 0))

/-! ## The split -/

theorem length_zeroed (c : Bytes) : (zeroed c).length = c.length := List.length_map ..

theorem zeroed_append (a b : Bytes) : zeroed (a ++ b) = zeroed a ++ zeroed b := List.map_append

theorem newline_not_mem_zeroed (c : Bytes) : NL ∉ zeroed c := by
  intro hmem
  obtain ⟨b, -, hb⟩ := List.mem_map.mp hmem
  split at hb
  · exact absurd hb (by decide)
  · contradiction

/-- Where the zeros are after the newlines are gone. -/
theorem zero_mem_zeroed : 0 ∈ zeroed l ↔ NL ∈ l ∨ 0 ∈ l := by
  unfold zeroed
  rw [List.mem_map]
  constructor
  · rintro ⟨b, hb, h0⟩
    split at h0
    · rename_i hnl
      exact .inl (hnl ▸ hb)
    · exact .inr (h0 ▸ hb)
  · rintro (h | h)
    · exact ⟨NL, h, if_pos rfl⟩
    · exact ⟨0, h, if_neg (by decide)⟩

/-- The offset of one more line. -/
theorem offsets_snoc (p : Nat) (done : List Bytes) (l : Bytes) : offsets p (done ++ [l]) = offsets p done ++ [p + done.flatten.length] := by
  induction done generalizing p with
  | nil => rfl
  | cons x xs ih =>
    rw [List.cons_append, offsets, ih, offsets, List.flatten_cons, List.length_append, Nat.add_assoc, List.cons_append]

/-- The bytes before `i` have been gone through: the complete lines `done` and the part `cur` of the next. -/
structure SplitInv (c rest : Bytes) (i : Nat) (st : LinesSt) : Prop where
  data : st.data = zeroed (c.take i) ++ (c.drop i ++ rest)
  lines : ∃ done cur, lines c = done ++ recordsFrom endsLine cur (c.drop i) ∧ done.flatten.length + cur.length = i ∧
    st.lines = offsets 0 (done ++ if i < c.length then [cur] else recordsFrom endsLine cur [])

/-- The next byte is not a newline. -/
theorem SplitInv.goes (h : SplitInv c rest i st) (hi : i < c.length) (hb : (c)[i] ≠ NL) : SplitInv c rest (i + 1) st := by
  obtain ⟨hdata, done, cur, hlines, hlen, hst⟩ := h
  rw [List.drop_eq_getElem_cons hi] at hdata hlines
  refine ⟨?_, done, cur ++ [(c)[i]], ?_, ?_, ?_⟩
  · have hz : zeroed (c.take (i + 1)) = zeroed (c.take i) ++ [(c)[i]] := by
      rw [← List.take_append_getElem hi, zeroed_append]
      simp [zeroed, hb]
    rw [hdata, hz, List.append_assoc]
    rfl
  · rw [hlines, recordsFrom_goes (by simp [hb])]
  · rw [List.length_append, List.length_singleton]
    omega
  · have hlast : recordsFrom endsLine (cur ++ [(c)[i]]) [] = [cur ++ [(c)[i]]] := recordsFrom_nil (by simp)
    rw [hlast, ite_self, offsets_snoc, hst, if_pos hi, offsets_snoc]

theorem set_append_cons {a r : Bytes} {b x : UInt8} (h : a.length = i) : (a ++ b :: r).set i x = a ++ x :: r := by
  subst h
  simp

/-- The next byte is a newline: the byte is overwritten, and a line starts after it unless it is the last byte. -/
theorem SplitInv.ends {st' : LinesSt} (h : SplitInv c rest i st) (hi : i < c.length) (hb : (c)[i] = NL)
    (hdata' : st'.data = st.data.set i 0) (hst' : st'.lines = st.lines ++ if i + 1 < c.length then [i + 1] else []) :
    SplitInv c rest (i + 1) st' := by
  obtain ⟨hdata, done, cur, hlines, hlen, hst⟩ := h
  rw [List.drop_eq_getElem_cons hi, hb] at hdata hlines
  have hzlen : (zeroed (c.take i)).length = i := by
    rw [length_zeroed, List.length_take]
    omega
  refine ⟨?_, done ++ [cur ++ [NL]], [], ?_, ?_, ?_⟩
  · have hz : zeroed (c.take (i + 1)) = zeroed (c.take i) ++ [0] := by
      rw [← List.take_append_getElem hi, zeroed_append, hb]
      rfl
    rw [hdata', hdata, hz, List.append_assoc]
    exact set_append_cons hzlen
  · rw [hlines, recordsFrom_ends (by simp), List.append_assoc, List.singleton_append]
  · rw [List.flatten_append, List.flatten_singleton, List.length_append, List.length_append, List.length_singleton]
    exact (Nat.add_assoc _ _ _).symm.trans (congrArg (· + 1) hlen)
  · have hflat : (done ++ [cur ++ [NL]]).flatten.length = i + 1 := by
      rw [List.flatten_append, List.flatten_singleton, List.length_append, List.length_append, List.length_singleton, ← Nat.add_assoc, hlen]
    rw [hst', hst, if_pos hi, offsets_snoc]
    by_cases hlast : i + 1 < c.length
    · rw [if_pos hlast, if_pos hlast, offsets_snoc, offsets_snoc, hflat, Nat.zero_add (i + 1)]
    · rw [if_neg hlast, if_neg hlast, List.append_nil, show recordsFrom endsLine [] [] = [] from rfl, List.append_nil, offsets_snoc]

/-- A byte is passed over, or ends a line. -/
theorem splitByte_wp (henv : SortEnv s0 s) (h : SplitInv c rest i st) (hi : i < c.length) :
    wp (splitByte c.length i st) (fun r s' => SortEnv s0 s' ∧ ∃ st', r = some st' ∧ SplitInv c rest (i + 1) st') E s := by
  have hzlen : (zeroed (c.take i)).length = i := by
    rw [length_zeroed, List.length_take]
    omega
  have hget : st.data[i]? = some (c)[i] := by
    rw [h.data, List.getElem?_append_right (by omega), hzlen, Nat.sub_self, List.drop_eq_getElem_cons hi]
    rfl
  have hin : i < st.data.length := (List.getElem?_eq_some_iff.mp hget).1
  unfold splitByte
  rw [hget, wp_ite]
  refine ⟨fun hb => ?_, fun hb => ⟨henv, st, rfl, h.goes hi fun hnl => hb (congrArg some hnl)⟩⟩
  have hnl : (c)[i] = NL := Option.some.inj hb
  rw [wp_bind, wp_store hin, wp_ite]
  refine ⟨fun hmore => ?_, fun hmore => ⟨henv, _, rfl, h.ends hi hnl rfl (by rw [if_neg hmore, List.append_nil])⟩⟩
  rw [wp_ite]
  refine ⟨fun _ => ?_, fun _ => ⟨henv, _, rfl, h.ends hi hnl rfl (by rw [if_pos hmore])⟩⟩
  rw [wp_bind, wp_ask]
  split
  · rename_i e he
    exact absurd he (henv.allocs 0 e)
  · exact ⟨henv.popped _, _, rfl, h.ends hi hnl rfl (by rw [if_pos hmore])⟩

/-- So the lines are found one by one. -/
theorem splitLines_wp (hn : i + n = c.length) (henv : SortEnv s0 s) (h : SplitInv c rest i st) :
    wp (splitLines c.length n i st) (fun r s' => SortEnv s0 s' ∧ ∃ st', r = some st' ∧ SplitInv c rest c.length st') E s := by
  induction n generalizing i st s with
  | zero =>
    obtain rfl : i = c.length := hn
    exact ⟨henv, st, rfl, h⟩
  | succ n ih =>
    unfold splitLines
    refine wp_call (splitByte_wp henv h (by omega)) fun r s1 h1 => ?_
    obtain ⟨henv1, st1, rfl, h1⟩ := h1
    exact ih (by omega) henv1 h1

/-- After the split. -/
structure Split (s0 : Os) (c : Bytes) (st : LinesSt) (rest : Bytes) : Prop where
  data : st.data = zeroed c ++ rest
  lines : st.lines = offsets 0 (lines c)
  junk : (∀ k j, s0.junk k j ≠ 0) → 0 ∉ rest

theorem splitInv_start (rest : Bytes) (hc : c ≠ []) : SplitInv c rest 0 ⟨c ++ rest, [0], INITIAL_LINES⟩ := by
  refine ⟨rfl, [], [], rfl, rfl, ?_⟩
  rw [if_pos (List.length_pos_of_ne_nil hc)]
  rfl

theorem SplitInv.split (h : SplitInv c rest c.length st) (hjunk : (∀ k j, s0.junk k j ≠ 0) → 0 ∉ rest) : Split s0 c st rest := by
  obtain ⟨hdata, done, cur, hlines, -, hst⟩ := h
  rw [List.take_length, List.drop_length, List.nil_append] at hdata
  rw [List.drop_length] at hlines
  rw [if_neg (Nat.lt_irrefl _), ← hlines] at hst
  exact ⟨hdata, hst, hjunk⟩

/-- In all, the file is split at its newlines. -/
theorem loadLines_wp (hfile : s.fs.content path = some c) (hc : c ≠ []) (hopen : NoError .opens s) (henv : SortEnv s s)
    (hturns : c.length < turns) :
    wp (loadLines turns path)
      (fun r s' => s'.stdout = s.stdout ∧ ∃ st rest, r = .ok (c.length, st) ∧ Split s c st rest) (fun _ => False) s := by
  unfold loadLines
  refine wp_call (readFile_wp hfile hopen henv hturns) fun r s1 h1 => ?_
  obtain ⟨henv1, data, rfl, hholds⟩ := h1
  have hdata : data = c ++ data.drop c.length := by
    have htake := hholds.held
    rw [List.take_length] at htake
    nth_rewrite 1 [← List.take_append_drop c.length data]
    rw [htake]
  dsimp only
  rw [if_neg (fun h => hc (List.length_eq_zero_iff.mp h)), wp_bind, wp_ask]
  split
  · rename_i e he
    exact absurd he (henv1.allocs 0 e)
  · have hstart := splitInv_start (data.drop c.length) hc
    rw [← hdata] at hstart
    refine wp_call (splitLines_wp (Nat.zero_add _) (henv1.popped .allocs) hstart) fun r s2 h2 => ?_
    obtain ⟨henv2, st, rfl, hst⟩ := h2
    exact ⟨henv2.out, st, _, rfl, hst.split hholds.junk⟩

/-! ## The strings -/

/-- The strings start where the lines do. -/
theorem map_drop_offsets (ls : List Bytes) (rest pre : Bytes) (hp : pre.length = p) :
    (offsets p ls).map (fun q => (pre ++ (zeroed ls.flatten ++ rest)).drop q) = suffixes rest ls := by
  induction ls generalizing p pre with
  | nil => rfl
  | cons l ls ih =>
    have hnext := ih (pre ++ zeroed l) (show _ = p + l.length by rw [List.length_append, length_zeroed, hp])
    rw [List.flatten_cons, zeroed_append, offsets, List.map_cons, List.drop_left' hp, suffixes, List.append_assoc]
    rw [List.append_assoc] at hnext
    rw [hnext]

/-- What the pointers point to. -/
theorem suffixes_of_split (h : Split s0 c st rest) : st.lines.map (st.data.drop ·) = suffixes rest (lines c) := by
  have hflat : (lines c).flatten = c := flatten_recordsFrom
  have hmap := map_drop_offsets (lines c) rest [] List.length_nil
  rw [hflat, List.nil_append] at hmap
  rw [h.data, h.lines, hmap]

/-- Every line has an end in it: so has every string, and no string depends on what follows. -/
theorem suffixes_of_ends (rest : Bytes) (h : ∀ l ∈ ls, 0 ∈ zeroed l) :
    (∀ x ∈ suffixes rest ls, 0 ∈ x) ∧ (suffixes rest ls).map cstr = ls.map fun l => cstr (zeroed l) := by
  induction ls with
  | nil => exact ⟨nofun, rfl⟩
  | cons l ls ih =>
    have h0 := h l List.mem_cons_self
    obtain ⟨hmem, hmap⟩ := ih fun x hx => h x (List.mem_cons_of_mem _ hx)
    constructor
    · intro x hx
      rcases List.mem_cons.mp hx with rfl | hx
      · exact List.mem_append_left _ h0
      · exact hmem x hx
    · rw [suffixes, List.map_cons, List.map_cons, cstr_append_of_mem h0, hmap]

/-- The string of the last line goes on with what follows the file. -/
theorem mem_suffixes_snoc : zeroed l ++ rest ∈ suffixes rest (ls ++ [l]) := by
  induction ls with
  | nil => exact List.mem_cons_self
  | cons x xs ih => exact List.mem_cons_of_mem _ ih

/-- A line without an end in it is the last one. -/
theorem lines_eq_append (hl : l ∈ lines c) (h0 : 0 ∉ zeroed l) : ∃ init, lines c = init ++ [l] := by
  refine recordsFrom_eq_append hl ?_
  by_contra hends
  have hlast : l.getLast? = some NL := by simpa [endsLine] using hends
  exact h0 (zero_mem_zeroed.mpr (.inl (List.mem_of_getLast? hlast)))

/-! ## What is printed -/

/-- Each line is printed up to its zero, with a newline. -/
theorem printLines_wp {ps : List Nat} (h : ∀ x ∈ ps.map (data.drop ·), 0 ∈ x) :
    wp (printLines data ps)
      (fun _ s' => s'.stdout = s.stdout ++ ((ps.map (data.drop ·)).map cstr).flatMap (· ++ [NL])) E s := by
  induction ps generalizing s with
  | nil => exact (List.append_nil _).symm
  | cons p ps ih =>
    unfold printLines
    rw [if_pos (h _ List.mem_cons_self), wp_bind, wp_print]
    refine wp_mono (ih fun x hx => h x (List.mem_cons_of_mem _ hx)) (fun _ s' hs' => ?_) fun _ he => he
    rw [hs', List.append_assoc]
    rfl

/-- Without a zero the print runs out of the buffer. -/
theorem not_wp_printLines {ps : List Nat} {x : Bytes} {Q : Unit → Os → Prop} (hx : x ∈ ps.map (data.drop ·)) (h0 : 0 ∉ x) :
    ¬ wp (printLines data ps) Q (fun _ => False) s := by
  induction ps generalizing s with
  | nil => cases hx
  | cons p ps ih =>
    unfold printLines
    rw [wp_ite, wp_throw, wp_bind, wp_print]
    intro hrun
    by_cases hp : 0 ∈ data.drop p
    · rcases List.mem_cons.mp hx with rfl | hx
      · exact h0 hp
      · exact ih hx (hrun.1 hp)
    · exact hrun.2 hp

/-- What is printed can be taken apart into the strings again. -/
theorem lines_flatMap {ts : List Bytes} (h : ∀ t ∈ ts, NL ∉ t) : lines (ts.flatMap (· ++ [NL])) = ts.map (· ++ [NL]) := by
  induction ts with
  | nil => rfl
  | cons t ts ih =>
    have hrest := ih fun x hx => h x (List.mem_cons_of_mem _ hx)
    unfold lines records at hrest ⊢
    rw [List.flatMap_cons, List.append_assoc, recordsFrom_endsLine_append (h t List.mem_cons_self), List.nil_append,
      List.singleton_append, recordsFrom_ends (by simp), hrest, List.map_cons]

end SortAux

end OsLab.Posix
