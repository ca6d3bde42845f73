import OsLab.Posix

/-!
# What the calls do

One rule for each call, and the loop that writes a block (`writeAll_wp`). What has gone out through a descriptor since a state
`s0`, with nothing else changed, is said by `Wrote`, for standard output and for a file that was empty.
-/

namespace OsLab.Posix

open Cmd

/-- No call of this kind is answered with an error. -/
def NoError (c : Syscall) (s : Os) : Prop := ∀ n e, s.answers c n ≠ .error e

/-- Every `write` moves all it is given. -/
def FullWrites (s : Os) : Prop := ∀ n, s.answers .writes n = .full

/-- Since `s0` the bytes `bs` have gone to standard output, or are the content of the file `j`; the descriptor is at their end. -/
def Wrote (s0 : Os) : Option Ino → Bytes → Fd → Os → Prop
  | none, bs, fd, s => fd = .stdout ∧ s.stdout = s0.stdout ++ bs ∧ s.fs = s0.fs
  | some j, bs, fd, s => fd = .file ⟨j, bs.length⟩ ∧ s.stdout = s0.stdout ∧ s.fs = s0.fs.setData j bs

/-- The state in which every call but `read` succeeds. -/
def willing (fs : FileSys) (r : Nat → Answer) : Os where
  fs := fs
  stdout := []
  stderr := []
  answers := Function.update (fun _ _ => .full) .reads r
  junk := fun _ _ => 0
  strerror := fun _ => []
  umask := 0

/-- A file system with the files "a", which is "hi", and "b", which is empty. -/
def twoFiles : FileSys where
  names := fun p => if p = [97] then some 0 else if p = [98] then some 1 else none
  inode := fun i => if i = 0 then { data := [104, 105], mode := 0o644 } else { data := [], mode := 0o644 }
  next := 2
  named_lt p i h := by
    split at h
    · cases h
      decide
    · split at h
      · cases h
        decide
      · cases h

/-- Three lines: "1", "2" and "3". -/
def threeLines : Bytes := [49, NL, 50, NL, 51, NL]

/-- The same file system with the three lines in "a". -/
def linesFile : FileSys := twoFiles.setData 0 threeLines

/-- Reads of a byte at a time. -/
def bytewise : Nat → Answer := fun _ => .part 0

namespace PosixAux

variable {E : Stop → Prop} {s s' s0 : Os} {c : Syscall} {onto : Option Ino} {fd : Fd} {bs bs0 : Bytes} {i : Ino} {α : Type} {n : Nat}

/-! ## Files and answers -/

@[simp] theorem setData_names (fs : FileSys) (i : Ino) (bs : Bytes) : (fs.setData i bs).names = fs.names := rfl

@[simp] theorem setData_data (fs : FileSys) (i : Ino) (bs : Bytes) : ((fs.setData i bs).inode i).data = bs := by
  simp [FileSys.setData]

theorem setData_inode_of_ne (fs : FileSys) {j : Ino} (bs : Bytes) (h : j ≠ i) : (fs.setData i bs).inode j = fs.inode j := by
  simp [FileSys.setData, h]

@[simp] theorem setData_setData (fs : FileSys) (i : Ino) (bs bs' : Bytes) : (fs.setData i bs).setData i bs' = fs.setData i bs' := by
  simp [FileSys.setData]

theorem setData_of_data {fs : FileSys} {bs : Bytes} (h : (fs.inode i).data = bs) : fs.setData i bs = fs := by
  subst h
  simp [FileSys.setData]

/-- The new contents, under every name of the file. -/
theorem content_setData {fs : FileSys} {p : Path} (bs : Bytes) (h : fs.names p = some i) : (fs.setData i bs).content p = some bs := by
  simp [FileSys.content, h]

@[simp] theorem popped_fs : (s.popped c).fs = s.fs := rfl

@[simp] theorem popped_stdout : (s.popped c).stdout = s.stdout := rfl

@[simp] theorem popped_answers_self : (s.popped c).answers c = fun n => s.answers c (n + 1) := by simp [Os.popped]

theorem popped_answers_of_ne {d : Syscall} (h : d ≠ c) : (s.popped c).answers d = s.answers d := by simp [Os.popped, h]

/-- Later answers are no errors either. -/
theorem noError_popped (h : NoError c s) (d : Syscall) : NoError c (s.popped d) := by
  intro n e
  by_cases hd : c = d
  · subst hd
    rw [popped_answers_self]
    exact h (n + 1) e
  · rw [popped_answers_of_ne hd]
    exact h n e

theorem fullWrites_popped (h : FullWrites s) (d : Syscall) : FullWrites (s.popped d) := by
  intro m
  by_cases hd : Syscall.writes = d
  · subst hd
    rw [popped_answers_self]
    exact h (m + 1)
  · rw [popped_answers_of_ne hd]
    exact h m

@[simp] theorem length_block (g : Nat → UInt8) (n : Nat) : (block g n).length = n := by simp [block]

/-- After a store the array holds one more of what is wanted. -/
theorem take_set_succ {a : List α} {j : Nat} (x : α) (hj : j < a.length) : (a.set j x).take (j + 1) = a.take j ++ [x] := by
  rw [List.take_add_one, List.getElem?_set_self hj, List.take_set_of_le (Nat.le_refl j)]
  rfl

theorem amount_le (a : Answer) (n : Nat) : a.amount n ≤ n := by
  cases a with
  | error e => exact Nat.zero_le n
  | part k => exact Nat.min_le_right _ _
  | full => exact Nat.le_refl n

/-- A call that does not fail moves something. -/
theorem amount_pos {a : Answer} (ha : ∀ e, a ≠ .error e) (hn : 0 < n) : 0 < a.amount n := by
  cases a with
  | error e => exact absurd rfl (ha e)
  | part k =>
    simp only [Answer.amount]
    omega
  | full => exact hn

theorem willing_reads (fs : FileSys) (r : Nat → Answer) : (willing fs r).answers .reads = r := by simp [willing]

/-- Apart from the reads, nothing fails. -/
theorem willing_ok (fs : FileSys) (r : Nat → Answer) (d : Syscall) (hd : d ≠ .reads) : NoError d (willing fs r) := by
  intro n e
  simp [willing, hd]

theorem willing_bytewise (fs : FileSys) : NoError .reads (willing fs bytewise) := by
  intro n e
  rw [willing_reads]
  nofun

theorem willing_writes (fs : FileSys) (r : Nat → Answer) : FullWrites (willing fs r) := by
  intro n
  simp [willing]

/-! ## The rules of the calls -/

@[simp] theorem wp_ask {Q : Answer → Os → Prop} : wp (ask c) Q E s ↔ Q (s.answers c 0) (s.popped c) := Iff.rfl

@[simp] theorem wp_print {Q : Unit → Os → Prop} : wp (print bs) Q E s ↔ Q () { s with stdout := s.stdout ++ bs } := Iff.rfl

@[simp] theorem wp_junk {Q : Bytes → Os → Prop} : wp (junk n) Q E s ↔ Q (block (s.junk 0) n) s.nextJunk := Iff.rfl

theorem wp_store {a : List α} {j : Nat} {x : α} {Q : List α → Os → Prop} (hj : j < a.length) :
    wp (store a j x) Q E s ↔ Q (a.set j x) s := by
  unfold store
  rw [if_pos hj]
  rfl

/-- A call whose answer is an error fails, and any other answer is carried out. -/
theorem wp_call {Q : α → Os → Prop} {fail : Nat → α} {go : Answer → Tool α} :
    wp (call c fail go) Q E s ↔
      (∀ e, s.answers c 0 = .error e → Q (fail e) (s.popped c)) ∧
        ((∀ e, s.answers c 0 ≠ .error e) → wp (go (s.answers c 0)) Q E (s.popped c)) := by
  unfold call
  rw [wp_bind, wp_ask]
  cases h : s.answers c 0 <;> simp

/-- What `malloc` comes to, by its answer. -/
theorem wp_malloc {Q : Except Nat Bytes → Os → Prop} :
    wp (malloc n) Q E s ↔
      (∀ e, s.answers .allocs 0 = .error e → Q (.error e) (s.popped .allocs)) ∧
        ((∀ e, s.answers .allocs 0 ≠ .error e) → Q (.ok (block (s.junk 0) n)) (s.popped .allocs).nextJunk) := by
  unfold malloc
  rw [wp_call]
  rfl

/-- What `open` comes to, by its answer. -/
theorem wp_openRead {path : Path} {Q : Except Nat OpenFile → Os → Prop} :
    wp (openRead path) Q E s ↔
      (∀ e, s.answers .opens 0 = .error e → Q (.error e) (s.popped .opens)) ∧
        ((∀ e, s.answers .opens 0 ≠ .error e) →
          match s.fs.names path with
          | none => Q (.error ENOENT) (s.popped .opens)
          | some i => Q (.ok ⟨i, 0⟩) (s.popped .opens)) := by
  unfold openRead
  rw [wp_call]
  refine and_congr Iff.rfl (imp_congr_right fun _ => ?_)
  simp only [wp_bind, wp_get, popped_fs]
  cases s.fs.names path <;> rfl

/-- A `read` from a file whose content is known. -/
theorem wp_read {f : OpenFile} {size : Nat} {Q : Except Nat Bytes × OpenFile → Os → Prop} (hdata : (s.fs.inode f.ino).data = bs) :
    wp (read f size) Q E s ↔
      (∀ e, s.answers .reads 0 = .error e → Q (.error e, f) (s.popped .reads)) ∧
        ((∀ e, s.answers .reads 0 ≠ .error e) →
          Q (.ok ((bs.drop f.pos).take ((s.answers .reads 0).amount (min size (bs.length - f.pos)))),
            { f with pos := f.pos + (s.answers .reads 0).amount (min size (bs.length - f.pos)) }) (s.popped .reads)) := by
  unfold read
  rw [wp_call]
  refine and_congr Iff.rfl (imp_congr_right fun _ => ?_)
  simp only [wp_bind, wp_get, wp_pure, popped_fs, hdata, List.length_drop]
  have hlen : (List.take ((s.answers .reads 0).amount (min size (bs.length - f.pos))) (bs.drop f.pos)).length =
      (s.answers .reads 0).amount (min size (bs.length - f.pos)) := by
    rw [List.length_take, List.length_drop]
    have := amount_le (s.answers .reads 0) (min size (bs.length - f.pos))
    omega
  rw [hlen]

/-- The first byte of what follows in a list, and the rest. -/
theorem cons_prefix_drop {b : UInt8} {k : Nat} {c : Bytes} (h : b :: bs <+: c.drop k) : (c)[k]? = some b ∧ bs <+: c.drop (k + 1) := by
  obtain ⟨rest, hrest⟩ := h
  refine ⟨?_, rest, ?_⟩
  · have h0 : (c.drop k)[0]? = some b := by rw [← hrest]; rfl
    rwa [List.getElem?_drop, Nat.add_zero] at h0
  · rw [← List.tail_drop, ← hrest]
    rfl

/-- A `read` that does not fail: at the end of the file it comes to nothing, and before it to some of the bytes that follow. -/
theorem wp_read_next {f : OpenFile} {size : Nat} {Q : Except Nat Bytes × OpenFile → Os → Prop} {c : Bytes}
    (hdata : (s.fs.inode f.ino).data = c) (hsize : 0 < size) (hpos : f.pos ≤ c.length) (hreads : NoError .reads s)
    (hend : f.pos = c.length → Q (.ok [], f) (s.popped .reads))
    (hnext : ∀ b bs, b :: bs <+: c.drop f.pos → (b :: bs).length ≤ size → f.pos + (b :: bs).length ≤ c.length →
      Q (.ok (b :: bs), { f with pos := f.pos + (b :: bs).length }) (s.popped .reads)) :
    wp (read f size) Q E s := by
  rw [wp_read hdata]
  refine ⟨fun e he => absurd he (hreads 0 e), fun hok => ?_⟩
  generalize hm : (s.answers .reads 0).amount (min size (c.length - f.pos)) = m
  have hmle : m ≤ min size (c.length - f.pos) := hm ▸ amount_le _ _
  have hlen : ((c.drop f.pos).take m).length = m := by
    rw [List.length_take, List.length_drop]
    omega
  by_cases hc : f.pos = c.length
  · obtain rfl : m = 0 := by omega
    exact hend hc
  · have hmpos : 0 < m := hm ▸ amount_pos hok (by omega)
    obtain ⟨b, bs, hbs⟩ := List.exists_cons_of_length_pos (hlen ▸ hmpos)
    have hlen' : (b :: bs).length = m := hbs ▸ hlen
    have hQ := hnext b bs (hbs ▸ List.take_prefix m _) (by omega) (by omega)
    rwa [hlen', ← hbs] at hQ

/-- What `unlink` comes to, by its answer. -/
theorem wp_unlink {path : Path} {Q : Option Nat → Os → Prop} :
    wp (unlink path) Q E s ↔
      (∀ e, s.answers .unlinks 0 = .error e → Q (some e) (s.popped .unlinks)) ∧
        ((∀ e, s.answers .unlinks 0 ≠ .error e) →
          match s.fs.names path with
          | none => Q (some ENOENT) (s.popped .unlinks)
          | some _ => Q none { s.popped .unlinks with fs := s.fs.remove path }) := by
  unfold unlink
  rw [wp_call]
  refine and_congr Iff.rfl (imp_congr_right fun _ => ?_)
  simp only [wp_bind, wp_get, popped_fs]
  cases s.fs.names path <;> rfl

/-- A `write` puts what it moves after what has been written. -/
theorem wp_write {Q : Except Nat Nat × Fd → Os → Prop} (h : Wrote s0 onto bs0 fd s)
    (herr : ∀ e, s.answers .writes 0 = .error e → Q (.error e, fd) (s.popped .writes))
    (hok : ∀ n fd' s', (∀ e, s.answers .writes 0 ≠ .error e) → n = (s.answers .writes 0).amount bs.length →
      Wrote s0 onto (bs0 ++ bs.take n) fd' s' → s'.answers = (s.popped .writes).answers → Q (.ok n, fd') s') :
    wp (write fd bs) Q E s := by
  unfold write
  rw [wp_call]
  refine ⟨fun e he => herr e he, fun hne => ?_⟩
  cases onto with
  | none =>
    obtain ⟨rfl, hout, hfs⟩ := h
    refine hok _ .stdout _ hne rfl ⟨rfl, ?_, hfs⟩ rfl
    simp [hout]
  | some j =>
    obtain ⟨rfl, hout, hfs⟩ := h
    refine hok _ (.file ⟨j, bs0.length + (s.answers .writes 0).amount bs.length⟩) _ hne rfl ⟨?_, hout, ?_⟩ rfl
    · have := amount_le (s.answers .writes 0) bs.length
      simp only [List.length_append, List.length_take, Nat.min_eq_left this]
    · have hend : bs0.drop (bs0.length + (s.answers .writes 0).amount bs.length) = [] := List.drop_eq_nil_of_le (by omega)
      simp [hfs, hend]

/-- A write that is done in full. -/
theorem wp_write_full {Q : Except Nat Nat × Fd → Os → Prop} (h : FullWrites s) :
    wp (write .stdout bs) Q E s ↔ Q (.ok bs.length, .stdout) { s.popped .writes with stdout := s.stdout ++ bs } := by
  unfold write
  rw [wp_call, h 0]
  simp only [Answer.amount, List.take_length, wp_bind, wp_modify, wp_pure, popped_stdout]
  exact ⟨fun h => h.2 (fun _ he => by cases he), fun h => ⟨(fun _ he => by cases he), fun _ => h⟩⟩

/-- What the loop around `write` comes to: everything is written, or a `write` fails. -/
theorem writeAll_wp (h : Wrote s0 onto bs0 fd s) :
    wp (writeAll fd bs)
      (fun r s' => (∀ d, d ≠ .writes → s'.answers d = s.answers d) ∧ (NoError .writes s → NoError .writes s') ∧
        match r with
        | .ok fd' => Wrote s0 onto (bs0 ++ bs) fd' s'
        | .error _ => ¬NoError .writes s ∧ ∃ done fd', Wrote s0 onto done fd' s') E s := by
  refine wp_loop_lt (fun x _ => x.1.length) (I := fun x s' => (∃ done, done ++ x.1 = bs ∧ Wrote s0 onto (bs0 ++ done) x.2 s') ∧
    (∀ d, d ≠ .writes → s'.answers d = s.answers d) ∧ (NoError .writes s → NoError .writes s')) ?_ (Nat.lt_succ_self _)
    ⟨⟨[], rfl, by rwa [List.append_nil]⟩, fun _ _ => rfl, id⟩
  rintro ⟨left, fd⟩ t ⟨⟨done, hdone, hw⟩, hans, hne⟩
  unfold writeTurn
  rw [wp_ite]
  refine ⟨fun hnil => ?_, fun hleft => ?_⟩
  · subst hnil
    rw [List.append_nil] at hdone
    subst hdone
    exact ⟨hans, hne, hw⟩
  · rw [wp_bind]
    refine wp_write hw (fun e he => ?_) fun n fd' t' hok hn hw' ht' => ?_
    · refine ⟨fun d hd => (popped_answers_of_ne hd).trans (hans d hd), fun h => noError_popped (hne h) _, fun h => hne h 0 e he, ?_⟩
      refine ⟨bs0 ++ done, fd, ?_⟩
      cases onto <;> exact hw
    · have hlen : 0 < left.length := List.length_pos_iff.mpr hleft
      have hpos : 0 < n := hn ▸ amount_pos hok hlen
      refine ⟨⟨⟨done ++ left.take n, ?_, ?_⟩, fun d hd => ?_, fun h => ?_⟩, ?_⟩
      · rw [List.append_assoc, List.take_append_drop, hdone]
      · rwa [← List.append_assoc]
      · rw [ht']
        exact (popped_answers_of_ne hd).trans (hans d hd)
      · intro m e
        rw [ht']
        exact noError_popped (hne h) .writes m e
      · show (left.drop n).length < left.length
        rw [List.length_drop]
        omega

end PosixAux

end OsLab.Posix
