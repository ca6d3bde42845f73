import OsLab.CopyTools
import OsLab.Lemmas.Posix

/-!
# Copies and moves

The loop of the copies ends in the same way at the end of the file and when a `read` fails, and none of the tools makes a
difference between the two where it counts: `custom_mv` removes the source, and `custom_cp` and `dump` return 0. So a move keeps
the data, and a status of 0 means an exact copy, exactly when no `read` fails while bytes are left (`mv_keeps_data_iff`,
`copies_exact_iff`); and `custom_cp` of a file to another of its names truncates what it is about to read.
-/

namespace OsLab.Posix

open Cmd hiding wp_call

/-- The paths do not name one file that is not empty, and no `read` fails while bytes are left. -/
def CopyOk (fs : FileSys) (src dst : Path) (r : Nat → Answer) : Prop :=
  (fs.names src = fs.names dst → fs.size src = 0) ∧ (fs.names src ≠ fs.names dst → ¬ReadFails BUF_SIZE (fs.size src) r)

namespace CopyAux

open PosixAux

variable {E : Stop → Prop} {s s' s0 : Os} {onto : Option Ino} {fd : Fd} {c : Bytes} {i j : Ino} {fs fs' : FileSys} {src dst path : Path}
  {size k turns : Nat} {r : Nat → Answer} {fs1 : FileSys}

/-! ## When the reads fail -/

theorem not_readFails_zero : ¬ReadFails size 0 r := by
  intro h
  cases h with
  | now hleft | later hleft => exact absurd hleft (Nat.lt_irrefl 0)

theorem readFails_error {left e : Nat} (he : r 0 = .error e) : ReadFails size left r ↔ 0 < left := by
  constructor
  · intro h
    cases h with
    | now hleft | later hleft => exact hleft
  · exact fun hleft => .now hleft he

theorem readFails_ok {left : Nat} (hok : ∀ e, r 0 ≠ .error e) (hleft : 0 < left) :
    ReadFails size left r ↔ ReadFails size (left - (r 0).amount (min size left)) fun n => r (n + 1) := by
  constructor
  · intro h
    cases h with
    | now _ he => exact absurd he (hok _)
    | later _ _ h => exact h
  · exact fun h => .later hleft hok h

/-! ## The loop -/

/-- The answers to the calls that the loop does not make are as they were. -/
def SameAnswers (s0 s : Os) : Prop := ∀ d, d ≠ .reads → d ≠ .writes → s.answers d = s0.answers d

/-- In the loop, with `k` bytes of the source copied. -/
structure Copying (s0 : Os) (i : Ino) (onto : Option Ino) (c : Bytes) (k : Nat) (x : OpenFile × Fd) (s : Os) : Prop where
  src : x.1 = ⟨i, k⟩
  le : k ≤ c.length
  wrote : Wrote s0 onto (c.take k) x.2 s
  fails : ReadFails BUF_SIZE (c.length - k) (s.answers .reads) ↔ ReadFails BUF_SIZE c.length (s0.answers .reads)
  writes : NoError .writes s0 → NoError .writes s
  others : SameAnswers s0 s

/-- How the loop may end. -/
def Copied (s0 : Os) (onto : Option Ino) (c : Bytes) (r : CopyEnd) (s : Os) : Prop :=
  SameAnswers s0 s ∧
    match r with
    | .eof => ¬ReadFails BUF_SIZE c.length (s0.answers .reads) ∧ ∃ fd, Wrote s0 onto c fd s
    | .readError _ => ∃ k fd, Wrote s0 onto (c.take k) fd s ∧ (k < c.length ↔ ReadFails BUF_SIZE c.length (s0.answers .reads))
    | .writeError _ => ¬NoError .writes s0 ∧ ∃ bs fd, Wrote s0 onto bs fd s

theorem wrote_popped {bs : Bytes} {d : Syscall} (h : Wrote s0 onto bs fd s) : Wrote s0 onto bs fd (s.popped d) := by
  cases onto <;> exact h

/-- Writing leaves the source as it is: it is another file, or an empty one of which nothing is written. -/
theorem wrote_data (h : Wrote s0 onto (c.take k) fd s) (hdata : (s0.fs.inode i).data = c) (hto : onto = some i → c = []) :
    (s.fs.inode i).data = c := by
  cases onto with
  | none => rw [h.2.2, hdata]
  | some j =>
    rw [h.2.2]
    by_cases hij : i = j
    · obtain rfl := hto (hij ▸ rfl)
      subst hij
      rw [setData_data, List.take_nil]
    · rw [setData_inode_of_ne _ _ hij, hdata]

theorem copyTurn_wp {x : OpenFile × Fd} (hdata : (s0.fs.inode i).data = c) (hto : onto = some i → c = [])
    (h : Copying s0 i onto c k x s) :
    wp (copyTurn x)
      (Cmd.Turn.Meets (fun x' s' => (∃ k, Copying s0 i onto c k x' s') ∧ c.length - x'.1.pos < c.length - x.1.pos)
        (Copied s0 onto c)) E s := by
  obtain ⟨f, fd⟩ := x
  obtain ⟨rfl, hle, hw, hfails, hnw, hoth⟩ := h
  have hci : (s.fs.inode i).data = c := wrote_data hw hdata hto
  have hoth' : SameAnswers s0 (s.popped .reads) := fun d hr hw => (popped_answers_of_ne hr).trans (hoth d hr hw)
  unfold copyTurn
  rw [wp_bind, wp_read hci]
  dsimp only
  refine ⟨fun e he => ?_, fun hok => ?_⟩
  · -- the answer is an error: whether bytes are left is what `ReadFails` says
    refine ⟨hoth', k, fd, wrote_popped hw, ?_⟩
    rw [← hfails, readFails_error he]
    omega
  · generalize hn : (s.answers .reads 0).amount (min BUF_SIZE (c.length - k)) = n
    have hnle : n ≤ min BUF_SIZE (c.length - k) := hn ▸ amount_le _ _
    have hlen : ((c.drop k).take n).length = n := by
      rw [List.length_take, List.length_drop]
      omega
    by_cases hend : k = c.length
    · have hzero : n = 0 := by omega
      subst hzero
      rw [List.take_zero]
      refine ⟨hoth', ?_, fd, ?_⟩
      · rw [← hfails, hend, Nat.sub_self]
        exact not_readFails_zero
      · rw [hend, List.take_length] at hw
        exact wrote_popped hw
    · have hpos : 0 < n := by
        rw [← hn]
        exact amount_pos hok (by unfold BUF_SIZE; omega)
      have hnext : c.take k ++ (c.drop k).take n = c.take (k + n) := (List.take_add ..).symm
      obtain ⟨b, bs, hbs⟩ := List.exists_cons_of_length_pos (hlen ▸ hpos)
      rw [hbs]
      refine Cmd.wp_call (writeAll_wp (wrote_popped hw)) fun r t ht => ?_
      obtain ⟨hans, hne, ht⟩ := ht
      have hreads : t.answers .reads = fun m => s.answers .reads (m + 1) := by rw [hans .reads nofun, popped_answers_self]
      have hotht : SameAnswers s0 t := fun d hr hw => (hans d hw).trans (hoth' d hr hw)
      cases r with
      | error e =>
        refine ⟨hotht, fun h0 => ht.1 ?_, ht.2⟩
        exact noError_popped (hnw h0) _
      | ok fd' =>
        rw [← hbs, hnext] at ht
        refine ⟨⟨k + n, rfl, by omega, ht, ?_, fun h0 => hne (noError_popped (hnw h0) _), hotht⟩, ?_⟩
        · rw [← hfails, readFails_ok hok (by omega), hn, hreads, Nat.sub_sub]
        · show c.length - (k + n) < c.length - k
          omega

theorem copying_start (hw : Wrote s0 onto [] fd s0) : Copying s0 i onto c 0 (⟨i, 0⟩, fd) s0 :=
  ⟨rfl, Nat.zero_le _, by rwa [List.take_zero], Iff.rfl, id, fun _ _ _ => rfl⟩

/-- The loop: a turn for each byte and one for the end are enough. -/
theorem copyLoop_wp (hdata : (s0.fs.inode i).data = c) (hto : onto = some i → c = []) (hw : Wrote s0 onto [] fd s0)
    (hturns : c.length < turns ∨ E .running) : wp (copyLoop turns ⟨i, 0⟩ fd) (Copied s0 onto c) E s0 := by
  have hstart : ∃ k, Copying s0 i onto c k (⟨i, 0⟩, fd) s0 := ⟨0, copying_start hw⟩
  rcases hturns with hturns | hE
  · refine wp_loop_lt (fun x _ => c.length - x.1.pos) (I := fun x s => ∃ k, Copying s0 i onto c k x s) (fun x s hx => ?_)
      hturns hstart
    exact copyTurn_wp hdata hto hx.choose_spec
  · refine wp_loop (I := fun x s => ∃ k, Copying s0 i onto c k x s) (fun x s hx => ?_) hE turns hstart
    refine wp_mono (copyTurn_wp hdata hto hx.choose_spec) (fun t s' ht => ?_) fun _ he => he
    cases t with
    | again x => exact ht.1
    | done r => exact ht

/-! ## The file that is opened for writing -/

/-- `fs'` is `fs` with the file `j` that `dst` names emptied, or made. -/
structure Truncated (dst : Path) (fs : FileSys) (j : Ino) (fs' : FileSys) : Prop where
  named : fs'.names dst = some j
  names : ∀ q, q ≠ dst → fs'.names q = fs.names q
  data : (fs'.inode j).data = []
  inode : ∀ i, i ≠ j → fs'.inode i = fs.inode i
  which : fs.names dst = some j ∨ fs.names dst = none ∧ j = fs.next

theorem Truncated.ne (h : Truncated dst fs j fs') (hi : fs.names src = some i) (hd : fs.names dst ≠ some i) : j ≠ i := by
  rintro rfl
  rcases h.which with hj | ⟨-, rfl⟩
  · exact hd hj
  · exact absurd (fs.named_lt src _ hi) (Nat.lt_irrefl _)

theorem Truncated.eq (h : Truncated dst fs j fs') (hd : fs.names dst = some i) : j = i := by
  rcases h.which with hj | ⟨hj, -⟩
  · exact Option.some.inj (hj.symm.trans hd)
  · rw [hd] at hj
    cases hj

theorem Truncated.path_ne (hi : fs.names src = some i) (hd : fs.names dst ≠ some i) : src ≠ dst := by
  rintro rfl
  exact hd hi

theorem truncated_create (fs : FileSys) (mode : Nat) (hd : fs.names dst = none) :
    Truncated dst fs fs.next (fs.create dst mode) where
  named := by simp [FileSys.create]
  names q hq := by simp [FileSys.create, hq]
  data := by simp [FileSys.create]
  inode i hi := by simp [FileSys.create, hi]
  which := .inr ⟨hd, rfl⟩

theorem truncated_setData (fs : FileSys) (hd : fs.names dst = some j) : Truncated dst fs j (fs.setData j []) where
  named := hd
  names _ _ := rfl
  data := setData_data fs j []
  inode _ hi := setData_inode_of_ne fs [] hi
  which := .inl hd

theorem wp_openTrunc {mode : Nat} {Q : Except Nat OpenFile → Os → Prop}
    (herr : ∀ e, s.answers .opens 0 = .error e → Q (.error e) (s.popped .opens))
    (hok : ∀ j s1, Truncated dst s.fs j s1.fs → s1.answers = (s.popped .opens).answers → Q (.ok ⟨j, 0⟩) s1) :
    wp (openTrunc dst mode) Q E s := by
  unfold openTrunc
  rw [wp_call]
  refine ⟨herr, fun _ => ?_⟩
  simp only [wp_bind, wp_get, popped_fs]
  cases hd : s.fs.names dst with
  | none => exact hok _ _ (truncated_create s.fs _ hd) rfl
  | some j => exact hok _ _ (truncated_setData s.fs hd) rfl

/-- The mode does not matter to what follows. -/
theorem wp_copyMode {f : OpenFile} {Q : Nat → Os → Prop} (h : ∀ mode, Q mode (s.popped .stats)) : wp (copyMode f) Q E s := by
  unfold copyMode fstat
  rw [wp_bind, wp_call]
  exact ⟨fun _ _ => h _, fun _ => h _⟩

/-! ## The whole tools -/

/-- Both files are open: the destination has been truncated, and no answer to `read` has been used. -/
structure Opened (dst : Path) (s : Os) (j : Ino) (s1 : Os) : Prop where
  trunc : Truncated dst s.fs j s1.fs
  reads : s1.answers .reads = s.answers .reads
  noError : ∀ d, NoError d s → NoError d s1

theorem opened_of_truncated {s1 : Os} (hT : Truncated dst s.fs j s1.fs)
    (hans : s1.answers = (((s.popped .opens).popped .stats).popped .opens).answers) : Opened dst s j s1 where
  trunc := hT
  reads := by simp [hans, Os.popped]
  noError d hd := by
    intro n e
    rw [hans]
    exact noError_popped (noError_popped (noError_popped hd _) _) _ n e

/-- The loop of a copy from the file `i` to the file `j` that has just been truncated. -/
theorem copyFile_wp (hT : Truncated dst fs j s0.fs) (hdata : (s0.fs.inode i).data = c) (hturns : c.length < turns ∨ E .running) :
    wp (copyLoop turns ⟨i, 0⟩ (.file ⟨j, 0⟩)) (Copied s0 (some j) c) E s0 := by
  refine copyLoop_wp hdata (fun hij => ?_) ⟨rfl, rfl, (setData_of_data hT.data).symm⟩ hturns
  cases hij
  exact hdata.symm.trans hT.data

/-- What `copy_then_unlink` may do: fail with the file system as it was; fail with part of a copy; or remove the source. -/
def MvResult (src dst : Path) (fs : FileSys) (r : Nat → Answer) (c : Bytes) (v : Nat) (fs' : FileSys) : Prop :=
  v = 1 ∧ fs' = fs ∨
    ∃ j fs1 bs, Truncated dst fs j fs1 ∧ (v = 1 ∧ fs' = fs1.setData j bs ∨
      ∃ k, v = 0 ∧ fs' = (fs1.setData j (c.take k)).remove src ∧ (k < c.length ↔ ReadFails BUF_SIZE c.length r))

/-- The end of a move, with `k` bytes copied. -/
theorem mv_unlink (hi : fs.names src = some i) (hd : fs.names dst ≠ some i) (hT : Truncated dst fs j fs1)
    (hfs : s.fs = fs1.setData j (c.take k)) (hk : k < c.length ↔ ReadFails BUF_SIZE c.length r) :
    wp (do
      match ← unlink src with
      | some e =>
        perror "unlink" e
        pure 1
      | none => pure 0)
      (fun v s' => MvResult src dst fs r c v s'.fs ∧ ((∀ e, s.answers .unlinks 0 ≠ .error e) → v = 0)) E s := by
  have hname : s.fs.names src = some i := by rw [hfs, setData_names, hT.names src (Truncated.path_ne hi hd), hi]
  rw [wp_bind, wp_unlink]
  refine ⟨fun e he => ⟨.inr ⟨j, fs1, _, hT, .inl ⟨rfl, hfs⟩⟩, fun h => absurd he (h e)⟩, fun _ => ?_⟩
  rw [hname]
  exact ⟨.inr ⟨j, fs1, [], hT, .inr ⟨k, rfl, by rw [hfs], hk⟩⟩, fun _ => rfl⟩

theorem mv_wp (hi : s.fs.names src = some i) (hdata : (s.fs.inode i).data = c) (hd : s.fs.names dst ≠ some i)
    (hturns : c.length < turns ∨ E .running) :
    wp (copyThenUnlink turns src dst)
      (fun v s' => MvResult src dst s.fs (s.answers .reads) c v s'.fs ∧ ((∀ d, d ≠ .reads → NoError d s) → v = 0)) E s := by
  unfold copyThenUnlink
  rw [wp_bind, wp_openRead]
  refine ⟨fun e he => ⟨.inl ⟨rfl, rfl⟩, fun h => absurd he (h .opens nofun 0 e)⟩, fun _ => ?_⟩
  rw [hi]
  dsimp only
  rw [wp_bind]
  refine wp_copyMode fun mode => ?_
  rw [wp_bind]
  refine wp_openTrunc (fun e he => ⟨.inl ⟨rfl, rfl⟩, fun h => ?_⟩) fun j s1 hT hans => ?_
  · exact absurd he (noError_popped (noError_popped (h .opens nofun) _) _ 0 e)
  obtain ⟨hT1, hreads, hok⟩ := opened_of_truncated (s := s) hT hans
  have hdata1 : (s1.fs.inode i).data = c := by rw [hT1.inode i (hT1.ne hi hd).symm, hdata]
  refine Cmd.wp_call (copyFile_wp hT1 hdata1 hturns) fun r s2 h2 => ?_
  obtain ⟨hans, h2⟩ := h2
  have hunlink : (∀ d, d ≠ .reads → NoError d s) → ∀ e, s2.answers .unlinks 0 ≠ .error e := by
    intro h e
    rw [hans .unlinks nofun nofun]
    exact hok _ (h .unlinks nofun) 0 e
  cases r with
  | writeError e =>
    obtain ⟨hne, bs, fd, hw⟩ := h2
    exact ⟨.inr ⟨j, s1.fs, bs, hT1, .inl ⟨rfl, hw.2.2⟩⟩, fun h => absurd (hok _ (h .writes nofun)) hne⟩
  | readError e =>
    obtain ⟨k, fd, hw, hk⟩ := h2
    rw [hreads] at hk
    exact wp_mono (mv_unlink hi hd hT1 hw.2.2 hk) (fun v s' hv => ⟨hv.1, fun h => hv.2 (hunlink h)⟩) fun _ he => he
  | eof =>
    obtain ⟨hnf, fd, hw⟩ := h2
    rw [hreads] at hnf
    have hk : c.length < c.length ↔ ReadFails BUF_SIZE c.length (s.answers .reads) := iff_of_false (Nat.lt_irrefl _) hnf
    have hall : s2.fs = s1.fs.setData j (c.take c.length) := by rw [List.take_length, hw.2.2]
    exact wp_mono (mv_unlink hi hd hT1 hall hk) (fun v s' hv => ⟨hv.1, fun h => hv.2 (hunlink h)⟩) fun _ he => he

/-- A source that is not there leaves everything as it is. -/
theorem mv_missing (hi : s.fs.names src = none) : wp (copyThenUnlink turns src dst) (fun v s' => v = 1 ∧ s'.fs = s.fs) E s := by
  unfold copyThenUnlink
  rw [wp_bind, wp_openRead, hi]
  exact ⟨fun _ _ => ⟨rfl, rfl⟩, fun _ => ⟨rfl, rfl⟩⟩

theorem content_of_name (hi : fs.names path = some i) : fs.content path = some (fs.inode i).data := by
  unfold FileSys.content
  rw [hi, Option.map_some]

theorem size_of_name (hi : fs.names path = some i) : fs.size path = (fs.inode i).data.length := by
  unfold FileSys.size
  rw [content_of_name hi, Option.getD_some]

theorem size_of_missing (hi : fs.names path = none) : fs.size path = 0 := by
  unfold FileSys.size FileSys.content
  rw [hi]
  rfl

theorem keepsData_refl (src dst : Path) (fs : FileSys) (v : Nat) : KeepsData src dst fs fs v := by
  refine ⟨fun c hc hgone => ?_, fun _ => rfl⟩
  unfold FileSys.content at hc
  rw [hgone] at hc
  cases hc

/-- A copy that has not removed the source has left it as it was. -/
theorem keepsData_copy {bs : Bytes} (hi : fs.names src = some i) (hd : fs.names dst ≠ some i) (hT : Truncated dst fs j fs1) (v : Nat) :
    KeepsData src dst fs (fs1.setData j bs) v := by
  have hname : (fs1.setData j bs).names src = some i := by rw [setData_names, hT.names src (Truncated.path_ne hi hd), hi]
  have hji : i ≠ j := (hT.ne hi hd).symm
  refine ⟨fun c _ hgone => ?_, fun _ => ?_⟩
  · rw [hname] at hgone
    cases hgone
  · rw [content_of_name hname, content_of_name hi, setData_inode_of_ne _ _ hji, hT.inode i hji]

/-- A source that has been removed keeps its data exactly when all of it has been copied. -/
theorem keepsData_removed (hi : fs.names src = some i) (hd : fs.names dst ≠ some i) (hT : Truncated dst fs j fs1) :
    KeepsData src dst fs ((fs1.setData j ((fs.inode i).data.take k)).remove src) 0 ↔ ¬k < (fs.inode i).data.length := by
  have hne : dst ≠ src := (Truncated.path_ne hi hd).symm
  have hgone : ((fs1.setData j ((fs.inode i).data.take k)).remove src).names src = none := by simp [FileSys.remove]
  have hdst : ((fs1.setData j ((fs.inode i).data.take k)).remove src).names dst = some j := by
    simp [FileSys.remove, hne, hT.named]
  have hcopy : ((fs1.setData j ((fs.inode i).data.take k)).remove src).content dst = some ((fs.inode i).data.take k) := by
    rw [content_of_name hdst]
    exact congrArg some (setData_data fs1 j _)
  constructor
  · intro h hlt
    have hall := h.removed _ (content_of_name hi) hgone
    rw [hcopy] at hall
    have hlen := congrArg List.length (Option.some.inj hall)
    rw [List.length_take] at hlen
    omega
  · intro hle
    refine ⟨fun c hc _ => ?_, fun he => by cases he⟩
    rw [content_of_name hi] at hc
    rw [hcopy, List.take_of_length_le (Nat.le_of_not_lt hle), hc]

/-- What `custom_cp` may do, when the source is the file `i`: fail, or leave in the destination a part of what the source had when the
destination had been truncated. -/
def CpResult (dst : Path) (fs : FileSys) (r : Nat → Answer) (i : Ino) (v : Nat) (fs' : FileSys) : Prop :=
  v = 1 ∨ ∃ j fs1 k, v = 0 ∧ Truncated dst fs j fs1 ∧ fs' = fs1.setData j ((fs1.inode i).data.take k) ∧
    (k < (fs1.inode i).data.length ↔ ReadFails BUF_SIZE (fs1.inode i).data.length r)

theorem cp_wp (hi : s.fs.names src = some i) (hturns : (s.fs.inode i).data.length < turns ∨ E .running) :
    wp (cp turns [src, dst])
      (fun v s' => CpResult dst s.fs (s.answers .reads) i v s'.fs ∧ ((∀ d, d ≠ .reads → NoError d s) → v = 0)) E s := by
  unfold cp
  rw [wp_bind, wp_openRead]
  refine ⟨fun e he => ⟨.inl rfl, fun h => absurd he (h .opens nofun 0 e)⟩, fun _ => ?_⟩
  rw [hi]
  dsimp only
  rw [wp_bind]
  refine wp_copyMode fun mode => ?_
  rw [wp_bind]
  refine wp_openTrunc (fun e he => ⟨.inl rfl, fun h => ?_⟩) fun j s1 hT hans => ?_
  · exact absurd he (noError_popped (noError_popped (h .opens nofun) _) _ 0 e)
  obtain ⟨hT1, hreads, hok⟩ := opened_of_truncated (s := s) hT hans
  -- the truncation cannot have made the source longer
  have hle : (s1.fs.inode i).data.length ≤ (s.fs.inode i).data.length := by
    by_cases hij : i = j
    · rw [hij, hT1.data]
      exact Nat.zero_le _
    · exact Nat.le_of_eq (by rw [hT1.inode i hij])
  refine Cmd.wp_call (copyFile_wp hT1 rfl (hturns.imp_left (Nat.lt_of_le_of_lt hle))) fun r s2 h2 => ?_
  obtain ⟨-, h2⟩ := h2
  rw [hreads] at h2
  cases r with
  | writeError e => exact ⟨.inl rfl, fun h => absurd (hok _ (h .writes nofun)) h2.1⟩
  | readError e =>
    obtain ⟨k, fd, hw, hk⟩ := h2
    exact ⟨.inr ⟨j, s1.fs, k, rfl, hT1, hw.2.2, hk⟩, fun _ => rfl⟩
  | eof =>
    obtain ⟨hnf, fd, hw⟩ := h2
    refine ⟨.inr ⟨j, s1.fs, (s1.fs.inode i).data.length, rfl, hT1, ?_, iff_of_false (Nat.lt_irrefl _) hnf⟩, fun _ => rfl⟩
    rw [List.take_length]
    exact hw.2.2

theorem cp_missing (hi : s.fs.names src = none) : wp (cp turns [src, dst]) (fun v _ => v = 1) E s := by
  unfold cp
  rw [wp_bind, wp_openRead, hi]
  exact ⟨fun _ _ => rfl, fun _ => rfl⟩

theorem dump_wp (hi : s.fs.names path = some i) (hdata : (s.fs.inode i).data = c) (hturns : c.length < turns ∨ E .running) :
    wp (dump turns path)
      (fun v s' => (v = 1 ∨ v = 0 ∧ ∃ k, s'.stdout = s.stdout ++ c.take k ∧
        (k < c.length ↔ ReadFails BUF_SIZE c.length (s.answers .reads))) ∧ ((∀ d, d ≠ .reads → NoError d s) → v = 0)) E s := by
  unfold dump
  rw [wp_bind, wp_openRead]
  refine ⟨fun e he => ⟨.inl rfl, fun h => absurd he (h .opens nofun 0 e)⟩, fun _ => ?_⟩
  rw [hi]
  dsimp only
  have hreads : (s.popped .opens).answers .reads = s.answers .reads := popped_answers_of_ne (by decide)
  have hloop : wp (copyLoop turns ⟨i, 0⟩ .stdout) (Copied (s.popped .opens) none c) E (s.popped .opens) :=
    copyLoop_wp hdata nofun ⟨rfl, (List.append_nil _).symm, rfl⟩ hturns
  refine Cmd.wp_call hloop fun r s2 h2 => ?_
  obtain ⟨-, h2⟩ := h2
  rw [hreads] at h2
  cases r with
  | writeError e => exact ⟨.inl rfl, fun h => absurd (noError_popped (h .writes nofun) _) h2.1⟩
  | readError e =>
    obtain ⟨k, fd, hw, hk⟩ := h2
    exact ⟨.inr ⟨rfl, k, hw.2.1, hk⟩, fun _ => rfl⟩
  | eof =>
    obtain ⟨hnf, fd, hw⟩ := h2
    refine ⟨.inr ⟨rfl, c.length, ?_, iff_of_false (Nat.lt_irrefl _) hnf⟩, fun _ => rfl⟩
    rw [List.take_length]
    exact hw.2.1

theorem dump_missing (hi : s.fs.names path = none) : wp (dump turns path) (fun v _ => v = 1) E s := by
  unfold dump
  rw [wp_bind, wp_openRead, hi]
  exact ⟨fun _ _ => rfl, fun _ => rfl⟩

/-- The condition on the copy of a file, as what goes wrong. -/
def CopyBad (fs : FileSys) (dst : Path) (r : Nat → Answer) (i : Ino) : Prop :=
  if fs.names dst = some i then (fs.inode i).data ≠ [] else ReadFails BUF_SIZE (fs.inode i).data.length r

theorem copyOk_of_name (hi : fs.names src = some i) : CopyOk fs src dst r ↔ ¬CopyBad fs dst r i := by
  unfold CopyOk CopyBad
  rw [hi, size_of_name hi]
  by_cases hd : fs.names dst = some i
  · simp [hd]
  · simp [hd, Ne.symm hd]

/-- What is in the destination after a status of 0. -/
theorem cpResult_content {v : Nat} (h : CpResult dst fs r i v fs') (hv : v = 0) :
    ∃ j fs1 k, Truncated dst fs j fs1 ∧ fs'.content dst = some ((fs1.inode i).data.take k) ∧
      (k < (fs1.inode i).data.length ↔ ReadFails BUF_SIZE (fs1.inode i).data.length r) := by
  rcases h with h1 | ⟨j, fs1, k, -, hT, hfs, hk⟩
  · rw [h1] at hv
    cases hv
  · refine ⟨j, fs1, k, hT, ?_, hk⟩
    have hname : fs'.names dst = some j := by rw [hfs, setData_names, hT.named]
    rw [content_of_name hname, hfs, setData_data]

theorem cp_exact {v : Nat} (hi : fs.names src = some i) (hok : ¬CopyBad fs dst r i) (h : CpResult dst fs r i v fs') (hv : v = 0) :
    ∃ c, fs.content src = some c ∧ fs'.content dst = some c := by
  obtain ⟨j, fs1, k, hT, hcopy, hk⟩ := cpResult_content h hv
  refine ⟨_, content_of_name hi, ?_⟩
  unfold CopyBad at hok
  split at hok
  · -- one file, and it was empty
    rename_i hd
    have hempty : (fs.inode i).data = [] := not_not.mp hok
    obtain rfl := hT.eq hd
    rw [hcopy, hT.data, hempty, List.take_nil]
  · rename_i hd
    rw [hT.inode i (hT.ne hi hd).symm] at hcopy hk
    rw [hcopy, List.take_of_length_le (Nat.le_of_not_lt fun h => hok (hk.mp h))]

theorem cp_inexact (hi : fs.names src = some i) (hbad : CopyBad fs dst r i) (h : CpResult dst fs r i 0 fs')
    (hc : fs.content src = some c) : fs'.content dst ≠ some c := by
  obtain ⟨j, fs1, k, hT, hcopy, hk⟩ := cpResult_content h rfl
  rw [content_of_name hi] at hc
  cases hc
  intro hall
  rw [hcopy] at hall
  have hall := Option.some.inj hall
  unfold CopyBad at hbad
  split at hbad
  · rename_i hd
    obtain rfl := hT.eq hd
    rw [hT.data, List.take_nil] at hall
    exact hbad hall.symm
  · rename_i hd
    rw [hT.inode i (hT.ne hi hd).symm] at hall hk
    have hlen := congrArg List.length hall
    rw [List.length_take] at hlen
    have hshort := hk.mpr hbad
    omega

end CopyAux

open PosixAux CopyAux

/-- For every file system with the source and the destination different files, and all answers to `read`: whatever the other calls
answer, `copy_then_unlink` keeps the data exactly when no `read` fails while bytes are left. -/
theorem mv_keeps_data_iff (fs : FileSys) (src dst : Path) (hdiff : DifferentFiles fs src dst) (r : Nat → Answer) :
    (∀ s turns, s.fs = fs → s.answers .reads = r →
      wp (copyThenUnlink turns src dst) (fun v s' => KeepsData src dst fs s'.fs v) (fun _ => True) s) ↔
      ¬ReadFails BUF_SIZE (fs.size src) r := by
  cases hi : fs.names src with
  | none =>
    rw [size_of_missing hi]
    refine iff_of_true (fun s turns hs _ => ?_) not_readFails_zero
    subst hs
    refine wp_mono (mv_missing hi) (fun v s' h => ?_) fun _ he => he
    rw [h.2]
    exact keepsData_refl src dst s.fs v
  | some i =>
    have hd := hdiff i hi
    rw [size_of_name hi]
    constructor
    · intro h hfails
      have hsafe := h (willing fs r) ((fs.inode i).data.length + 1) rfl (willing_reads fs r)
      have hrun : wp (copyThenUnlink ((fs.inode i).data.length + 1) src dst) _ (fun _ => False) (willing fs r) :=
        mv_wp hi rfl hd (.inl (Nat.lt_succ_self _))
      obtain ⟨v, s', hv, hres, hzero⟩ := exists_of_wp hrun
      have hkeeps := wp_ok hsafe hv
      obtain rfl := hzero fun d hd => willing_ok fs r d hd
      rw [willing_reads] at hres
      rcases hres with ⟨h1, -⟩ | ⟨j, fs1, bs, hT, ⟨h1, -⟩ | ⟨k, -, hfs, hk⟩⟩
      · cases h1
      · cases h1
      · rw [hfs] at hkeeps
        exact (keepsData_removed hi hd hT).mp hkeeps (hk.mpr hfails)
    · intro hnf s turns hs hr
      subst hs
      refine wp_mono (mv_wp hi rfl hd (.inr trivial)) (fun v s' h => ?_) fun _ he => he
      rw [hr] at h
      rcases h.1 with ⟨-, hfs⟩ | ⟨j, fs1, bs, hT, ⟨-, hfs⟩ | ⟨k, rfl, hfs, hk⟩⟩
      · rw [hfs]
        exact keepsData_refl src dst s.fs v
      · rw [hfs]
        exact keepsData_copy hi hd hT v
      · rw [hfs]
        exact (keepsData_removed hi hd hT).mpr fun hlt => hnf (hk.mp hlt)

/-- A first `read` of one byte, and then an error (`EIO`). -/
def readsOneByte : Nat → Answer
  | 0 => .part 0
  | _ => .error 5

theorem not_readFails_bytewise (size left : Nat) : ¬ReadFails size left bytewise := by
  intro h
  generalize hr : bytewise = r at h
  induction h with
  | now _ he =>
    subst hr
    cases he
  | later _ _ _ ih =>
    subst hr
    exact ih rfl

theorem twoFiles_different : DifferentFiles twoFiles [97] [98] := by
  intro i hi
  have h0 : i = 0 := (Option.some.inj hi).symm
  subst h0
  decide

/-- Reads of a byte at a time get to the end. -/
theorem mv_keeps_data_bytewise :
    DifferentFiles twoFiles [97] [98] ∧ ¬ReadFails BUF_SIZE (twoFiles.size [97]) bytewise ∧
      ∀ s turns, s.fs = twoFiles → s.answers .reads = bytewise →
        wp (copyThenUnlink turns [97] [98]) (fun v s' => KeepsData [97] [98] twoFiles s'.fs v) (fun _ => True) s :=
  ⟨twoFiles_different, not_readFails_bytewise _ _,
    (mv_keeps_data_iff twoFiles [97] [98] twoFiles_different bytewise).mpr (not_readFails_bytewise _ _)⟩

/-- "a" is moved to "b", the second `read` fails, and the tool removes "a" and returns 0 with "h" in "b". -/
theorem mv_loses_data :
    ∃ s', copyThenUnlink 3 [97] [98] (willing twoFiles readsOneByte) = .ok (0, s') ∧ s'.fs.names [97] = none ∧
      twoFiles.content [97] = some [104, 105] ∧ s'.fs.content [98] = some [104] := by
  have hrun : ∃ v s', copyThenUnlink 3 [97] [98] (willing twoFiles readsOneByte) = .ok (v, s') ∧
      (v = 0 ∧ s'.fs.names [97] = none ∧ s'.fs.content [98] = some [104]) := by
    refine exists_of_wp ?_
    decide +kernel
  obtain ⟨v, s', hrun, rfl, hgone, hcopy⟩ := hrun
  exact ⟨s', hrun, hgone, by decide, hcopy⟩

/-- For every file system and all answers to `read`, whatever the other calls answer: a status 0 of `custom_cp` means that the
destination has the content that the source had at the start, for two paths, exactly when these are `CopyOk`; and a return of 0 from
`dump` means that the content of the file has gone to standard output exactly when no `read` fails while bytes are left. -/
theorem copies_exact_iff (fs : FileSys) (r : Nat → Answer) :
    (∀ src dst, (∀ s turns, s.fs = fs → s.answers .reads = r →
        wp (cp turns [src, dst]) (fun v s' => v = 0 → ∃ c, fs.content src = some c ∧ s'.fs.content dst = some c)
          (fun _ => True) s) ↔ CopyOk fs src dst r) ∧
      ∀ path, (∀ s turns, s.fs = fs → s.answers .reads = r →
        wp (dump turns path) (fun v s' => v = 0 → ∃ c, fs.content path = some c ∧ s'.stdout = s.stdout ++ c)
          (fun _ => True) s) ↔ ¬ReadFails BUF_SIZE (fs.size path) r := by
  constructor
  · intro src dst
    cases hi : fs.names src with
    | none =>
      refine iff_of_true (fun s turns hs _ => ?_) ⟨fun _ => size_of_missing hi, fun _ => ?_⟩
      · subst hs
        refine wp_mono (cp_missing hi) (fun v s' hv hzero => ?_) fun _ he => he
        rw [hv] at hzero
        cases hzero
      · rw [size_of_missing hi]
        exact not_readFails_zero
    | some i =>
      rw [copyOk_of_name hi]
      constructor
      · intro h hbad
        have hsafe := h (willing fs r) ((fs.inode i).data.length + 1) rfl (willing_reads fs r)
        have hrun : wp (cp ((fs.inode i).data.length + 1) [src, dst]) _ (fun _ => False) (willing fs r) :=
          cp_wp hi (.inl (Nat.lt_succ_self _))
        obtain ⟨v, s', hv, hres, hzero⟩ := exists_of_wp hrun
        obtain rfl := hzero fun d hd => willing_ok fs r d hd
        obtain ⟨c, hc, hcopy⟩ := wp_ok hsafe hv rfl
        rw [willing_reads] at hres
        exact cp_inexact hi hbad hres hc hcopy
      · intro hok s turns hs hr
        subst hs
        refine wp_mono (cp_wp hi (.inr trivial)) (fun v s' h hzero => ?_) fun _ he => he
        rw [hr] at h
        exact cp_exact hi hok h.1 hzero
  · intro path
    cases hi : fs.names path with
    | none =>
      rw [size_of_missing hi]
      refine iff_of_true (fun s turns hs _ => ?_) not_readFails_zero
      subst hs
      refine wp_mono (dump_missing hi) (fun v s' hv hzero => ?_) fun _ he => he
      rw [hv] at hzero
      cases hzero
    | some i =>
      rw [size_of_name hi]
      constructor
      · intro h hfails
        have hsafe := h (willing fs r) ((fs.inode i).data.length + 1) rfl (willing_reads fs r)
        have hrun : wp (dump ((fs.inode i).data.length + 1) path) _ (fun _ => False) (willing fs r) :=
          dump_wp hi rfl (.inl (Nat.lt_succ_self _))
        obtain ⟨v, s', hv, hres, hzero⟩ := exists_of_wp hrun
        obtain rfl := hzero fun d hd => willing_ok fs r d hd
        obtain ⟨c, hc, hout⟩ := wp_ok hsafe hv rfl
        rw [content_of_name hi] at hc
        cases hc
        rcases hres with h1 | ⟨-, k, hk, hlt⟩
        · cases h1
        · rw [willing_reads] at hlt
          have hall : (fs.inode i).data = (fs.inode i).data.take k := List.append_cancel_left (hout.symm.trans hk)
          have hlen := congrArg List.length hall
          rw [List.length_take] at hlen
          have hshort : k < (fs.inode i).data.length := hlt.mpr hfails
          omega
      · intro hnf s turns hs hr
        subst hs
        refine wp_mono (dump_wp hi rfl (.inr trivial)) (fun v s' h hzero => ?_) fun _ he => he
        rw [hr] at h
        refine ⟨_, content_of_name hi, ?_⟩
        rcases h.1 with h1 | ⟨-, k, hk, hlt⟩
        · rw [h1] at hzero
          cases hzero
        · rw [hk, List.take_of_length_le (Nat.le_of_not_lt fun h => hnf (hlt.mp h))]

/-- "a" and "b" are two names of the file "hi". -/
def twoNames : FileSys where
  names := fun p => if p = [97] ∨ p = [98] then some 0 else none
  inode := fun _ => { data := [104, 105], mode := 0o644 }
  next := 1
  named_lt p i h := by
    split at h
    · cases h
      decide
    · cases h

/-- `custom_cp` of "a" to its other name "b" empties the file and returns 0; and when the second `read` of "a" fails, `custom_cp` to
another file returns 0 with "h" there, and `dump` returns 0 having written "h". -/
theorem copies_inexact :
    (∃ s', cp 3 [[97], [98]] (willing twoNames bytewise) = .ok (0, s') ∧ twoNames.content [97] = some [104, 105] ∧
      s'.fs.content [98] = some []) ∧
    (∃ s', cp 3 [[97], [98]] (willing twoFiles readsOneByte) = .ok (0, s') ∧ s'.fs.content [98] = some [104]) ∧
    ∃ s', dump 3 [97] (willing twoFiles readsOneByte) = .ok (0, s') ∧ s'.stdout = [104] := by
  refine ⟨?_, ?_, ?_⟩
  · have hrun : ∃ v s', cp 3 [[97], [98]] (willing twoNames bytewise) = .ok (v, s') ∧ (v = 0 ∧ s'.fs.content [98] = some []) :=
      exists_of_wp (by decide +kernel)
    obtain ⟨v, s', hrun, rfl, hcopy⟩ := hrun
    exact ⟨s', hrun, by decide, hcopy⟩
  · have hrun : ∃ v s', cp 3 [[97], [98]] (willing twoFiles readsOneByte) = .ok (v, s') ∧ (v = 0 ∧ s'.fs.content [98] = some [104]) :=
      exists_of_wp (by decide +kernel)
    obtain ⟨v, s', hrun, rfl, hcopy⟩ := hrun
    exact ⟨s', hrun, hcopy⟩
  · have hrun : ∃ v s', dump 3 [97] (willing twoFiles readsOneByte) = .ok (v, s') ∧ (v = 0 ∧ s'.stdout = [104]) :=
      exists_of_wp (by decide +kernel)
    obtain ⟨v, s', hrun, rfl, hout⟩ := hrun
    exact ⟨s', hrun, hout⟩

end OsLab.Posix
