import OsLab.Log
import OsLab.Lemmas.Bio

/-!
# What the functions of log.c do

A header that is written is read back (`headerOf_putHeader`), and each function of `log.c` is described by the block of the disk that
it writes and by the blocks that are dirty after it.
-/

namespace OsLab

open Function (update update_self update_of_ne)
open Cmd

/-! ## The header -/

theorem putBlocks_of_outside {l : List Nat} {b : Block} {i : Nat} {j : Fin BSIZE} (hl : 4 * (i + l.length + 1) ≤ BSIZE)
    (hj : j.val < 4 * (i + 1)) : putBlocks b i l j = b j := by
  induction l generalizing b i with
  | nil => rfl
  | cons n l ih =>
    rw [List.length_cons] at hl
    rw [putBlocks, ih (by omega) (by omega), putLE_of_outside (by omega) (.inl hj)]

/-- The block numbers are read back. -/
theorem getLE_putBlocks {l : List Nat} {b : Block} {i k : Nat} (hl : 4 * (i + l.length + 1) ≤ BSIZE) (hn : ∀ n ∈ l, n < 256 ^ 4)
    (hk : k < l.length) : getLE (putBlocks b i l) (4 * (i + k + 1)) 4 = l.getD k 0 := by
  induction l generalizing b i k with
  | nil => exact absurd hk (Nat.not_lt_zero k)
  | cons n l ih =>
    rw [List.length_cons] at hl hk
    rw [putBlocks]
    cases k with
    | zero =>
      have hsame : getLE (putBlocks (putLE b (4 * (i + 1)) 4 n) (i + 1) l) (4 * (i + 0 + 1)) 4 =
          getLE (putLE b (4 * (i + 1)) 4 n) (4 * (i + 0 + 1)) 4 :=
        getLE_congr (by omega) fun j _ hj => putBlocks_of_outside (by omega) (by omega)
      rw [hsame, Nat.add_zero, getLE_putLE (by omega) (hn n List.mem_cons_self), List.getD_cons_zero]
    | succ k =>
      rw [List.getD_cons_succ, ← ih (i := i + 1) (by omega) (fun m hm => hn m (List.mem_cons_of_mem n hm)) (by omega)]
      rw [show 4 * (i + (k + 1) + 1) = 4 * (i + 1 + k + 1) by omega]

/-- A header that is written is read back. -/
theorem headerOf_putHeader {l : List Nat} (b : Block) (hl : l.length ≤ LOGSIZE) (hn : ∀ n ∈ l, n < FSSIZE) :
    headerOf (putHeader l b) = l := by
  have hlen : l.length ≤ 30 := hl
  have hsize : BSIZE = 512 := rfl
  have hcount : getLE (putHeader l b) 0 4 = l.length := by
    have hsame : getLE (putHeader l b) 0 4 = getLE (putLE b 0 4 l.length) 0 4 :=
      getLE_congr (by decide) fun j _ hj => putBlocks_of_outside (by omega) (by omega)
    rw [hsame, getLE_putLE (by decide) (by omega)]
  unfold headerOf
  rw [hcount, int32_of_lt (by omega) (by omega), Int.toNat_natCast]
  refine List.ext_getElem (by simp) fun i h1 h2 => ?_
  rw [List.getElem_map, List.getElem_range]
  have hget := getLE_putBlocks (b := putLE b 0 4 l.length) (i := 0) (by omega)
    (fun n hm => Nat.lt_of_lt_of_le (hn n hm) (by decide)) h2
  rw [Nat.zero_add] at hget
  rw [putHeader, hget, List.getD_eq_getElem?_getD, List.getElem?_eq_getElem h2, Option.getD_some]

/-- A block is logged once. -/
theorem absorb_eq (b : Nat) (l : List Nat) : absorb b l = if b ∈ l then l else l ++ [b] := by
  induction l with
  | nil => rfl
  | cons c l ih =>
    rw [absorb]
    by_cases hc : c = b
    · subst hc
      simp
    · rw [if_neg hc, ih]
      by_cases hb : b ∈ l <;> simp [hb, Ne.symm hc]

namespace Store

variable {A : LogArea} {s : Store} {vs : List (Fin NBUF)} {p b : Nat} {E : FsStop → Prop}

@[simp] theorem wp_onIo {α : Type} {x : IoM α} {Q : α → Store → Prop} :
    wp (onIo x) Q E s ↔ wp x (fun a io => Q a { s with io := io }) E s.io := wp_zoom

/-- Either a function of `log.c` may fail to come back, or there are buffers for it and nobody is in its way. -/
structure Frees (E : FsStop → Prop) (io : Io) (vs : List (Fin NBUF)) : Prop where
  bget : E .bget ∨ vs.length + 2 ≤ NBUF ∧ ∀ b, io.pinned b = none
  wait : E .wait ∨ ∀ i, io.locks i = none

end Store

namespace Io

variable {s : Io} {vs : List (Fin NBUF)} {i : Fin NBUF} {p a b : Nat} {E : FsStop → Prop}

/-- With nothing dirty and few references there is a buffer to be had. -/
theorem Good.exists_free (h : s.Good vs) (hlen : vs.length < NBUF) (hp : ∀ b, s.pinned b = none) :
    ¬ ∀ j, (s.bc.buf j).refcnt ≠ 0 ∨ (s.bc.buf j).dirty = true := by
  intro hall
  have hmem : ∀ j, j ∈ vs := by
    intro j
    rcases hall j with hr | hd
    · rw [h.ok.refs] at hr
      exact List.count_pos_iff.mp (Nat.pos_of_ne_zero hr)
    · have hnone := hp (s.bc.buf j).blockno
      unfold pinned at hnone
      rw [h.ok.entry_of_caches (h.ok.caches_of_valid (h.ok.dirty j hd))] at hnone
      simp [Buf.entry, hd] at hnone
  have hcard : (List.finRange NBUF).length ≤ vs.length :=
    ((List.nodup_finRange NBUF).subperm fun j _ => hmem j).length_le
  rw [List.length_finRange] at hcard
  omega

/-- Two blocks read one after the other. -/
theorem bread2_wp {Q : Fin NBUF → Fin NBUF → Io → Prop} (h : s.Good vs) (hf : Store.Frees E s vs) (hab : a ≠ b) (ha : a < FSSIZE)
    (hb : b < FSSIZE)
    (hQ : ∀ i j t, t.Good (j :: i :: vs) → Same s t → (t.bc.buf i).blockno = a → (t.bc.buf j).blockno = b → i ≠ j →
      (∀ k ∈ vs, (t.bc.buf k).blockno = (s.bc.buf k).blockno) → s.locks i = none → s.locks j = none →
      t.locks = update (update s.locks i (some p)) j (some p) → Q i j t) :
    wp (bread p ROOTDEV a) (fun i t => wp (bread p ROOTDEV b) (fun j u => Q i j u) E t) E s := by
  refine bread_wp h (fun hfull => ?_) (fun hlock => ?_) (fun hno => absurd ha (by omega))
    fun i t ht hsame hblock hkeep _ hnone hlocks => ?_
  · rcases hf.bget with hE | ⟨hlen, hp⟩
    · exact hE
    · exact absurd hfull (h.exists_free (by omega) hp)
  · rcases hf.wait with hE | hfree
    · exact hE
    · obtain ⟨j, hj, -⟩ := hlock
      exact absurd (hfree j) hj
  · refine bread_wp ht (fun hfull => ?_) (fun hlock => ?_) (fun hno => absurd hb (by omega))
      fun j u hu hsame' hblock' hkeep' _ hnone' hlocks' => ?_
    · rcases hf.bget with hE | ⟨hlen, hp⟩
      · exact hE
      · refine absurd hfull (ht.exists_free ?_ fun c => by rw [hsame.pinned]; exact hp c)
        rw [List.length_cons]
        omega
    · rcases hf.wait with hE | hfree
      · exact hE
      · obtain ⟨j, hj, hjb⟩ := hlock
        rw [hlocks] at hj
        by_cases hji : j = i
        · exact absurd (hblock.symm.trans (hji ▸ hjb)) hab
        · rw [update_of_ne hji] at hj
          exact absurd (hfree j) hj
    · have hij : i ≠ j := by
        intro hij
        rw [hlocks, ← hij, update_self] at hnone'
        exact Option.some_ne_none p hnone'
      refine hQ i j u hu (hsame.trans hsame') ((hkeep' i List.mem_cons_self).trans hblock) hblock' hij
        (fun k hk => (hkeep' k (List.mem_cons_of_mem i hk)).trans (hkeep k hk)) hnone ?_ (by rw [hlocks', hlocks])
      rw [hlocks, update_of_ne hij.symm] at hnone'
      exact hnone'

/-- Two locks taken and given back. -/
theorem locks_restored {f : Fin NBUF → Option Nat} {i j : Fin NBUF} (hi : f i = none) (hj : f j = none) (v w : Option Nat) :
    update (update (update (update f i v) j w) i none) j none = f := by
  funext k
  by_cases hkj : k = j
  · rw [hkj, update_self, hj]
  · rw [update_of_ne hkj]
    by_cases hki : k = i
    · rw [hki, update_self, hi]
    · rw [update_of_ne hki, update_of_ne hkj, update_of_ne hki]

/-- Two buffers released. -/
theorem brelse2_wp {Q : Unit → Io → Prop} {i j : Fin NBUF} (h : s.Good (j :: i :: vs)) (hij : i ≠ j) (hi : s.locks i = some p)
    (hj : s.locks j = some p)
    (hQ : ∀ t, t.Good vs → Same s t → (∀ k, (t.bc.buf k).blockno = (s.bc.buf k).blockno) →
      t.locks = update (update s.locks i none) j none → Q () t) :
    wp (brelse p i) (fun _ t => wp (brelse p j) Q E t) E s ∧ wp (brelse p j) (fun _ t => wp (brelse p i) Q E t) E s := by
  have hei : (j :: i :: vs).erase i = j :: vs := by
    rw [List.erase_cons_tail (by simpa using hij.symm), List.erase_cons_head]
  constructor
  · refine brelse_wp h hi fun t ht hsame hkeep hlocks => brelse_wp ht ?_ fun u hu hsame' hkeep' hlocks' => ?_
    · rw [hlocks, update_of_ne hij.symm]
      exact hj
    · rw [hei, List.erase_cons_head] at hu
      exact hQ u hu (hsame.trans hsame') (fun k => (hkeep' k).trans (hkeep k)) (by rw [hlocks', hlocks])
  · refine brelse_wp h hj fun t ht hsame hkeep hlocks => brelse_wp ht ?_ fun u hu hsame' hkeep' hlocks' => ?_
    · rw [hlocks, update_of_ne hij]
      exact hi
    · rw [List.erase_cons_head, List.erase_cons_head] at hu
      exact hQ u hu (hsame.trans hsame') (fun k => (hkeep' k).trans (hkeep k))
        (by rw [hlocks', hlocks, Function.update_comm hij])

end Io

namespace Store

variable {A : LogArea} {s : Store} {vs : List (Fin NBUF)} {p b : Nat} {E : FsStop → Prop} {Q : Unit → Store → Prop}

/-- What a function of `log.c` that writes one block of the disk leaves behind. -/
structure Wrote (s t : Store) (vs : List (Fin NBUF)) (b : Nat) (d : Block) : Prop where
  good : t.io.Good vs
  disk : t.io.disk ROOTDEV = update (s.io.disk ROOTDEV) b d
  pinned : t.io.pinned = update s.io.pinned b none
  keeps : ∀ k ∈ vs, (t.io.bc.buf k).blockno = (s.io.bc.buf k).blockno
  locks : t.io.locks = s.io.locks
  log : t.log = s.log

/-- `write_log`, one turn: the block goes to the log as a reader would get it. -/
theorem writeLogOne_wp {t : Nat} (h : s.io.Good vs) (hf : Frees E s.io vs) (ht : s.log.lh[t]? = some b) (hb : b < FSSIZE)
    (hhome : A.Home b) (hroom : t + 1 < A.size) (hQ : ∀ u, Wrote s u vs (A.start + t + 1) (s.io.view b) → Q () u) :
    wp (writeLogOne A p t) Q E s := by
  have hfits := A.fits
  have hne : A.start + t + 1 ≠ b := by
    rcases hhome with hlt | hle <;> omega
  unfold writeLogOne
  simp only [wp_bind, wp_get, wp_onIo, List.getD_eq_getElem?_getD, ht, Option.getD_some]
  refine Io.bread2_wp h hf hne (by omega) hb fun i j u hu hsame hbi hbj hij hkeep hni hnj hlocks => ?_
  have hli : u.locks i = some p := by rw [hlocks, update_of_ne hij, update_self]
  have hlj : u.locks j = some p := by rw [hlocks, update_self]
  have hdata : (u.bc.buf j).data = s.io.view b := by
    rw [hu.data_eq (hu.of_lock hlj).2, hbj, hu.view_eq, h.view_eq, hsame.pinned, hsame.disk]
  rw [← wp_bind]
  refine Io.write_wp (fun _ => (u.bc.buf j).data) hu hli hbi fun v hv hdisk hpin hkeep' hlocks' => ?_
  refine (Io.brelse2_wp hv hij (by rw [hlocks', hli]) (by rw [hlocks', hlj]) fun w hw hsame' hkeep'' hlocks'' => ?_).2
  refine hQ _ ⟨hw, ?_, ?_, ?_, ?_, rfl⟩
  · rw [hsame'.disk, hdisk, hsame.disk, hdata]
  · rw [hsame'.pinned, hpin, hsame.pinned]
  · exact fun k hk => (hkeep'' k).trans ((hkeep' k).trans (hkeep k hk))
  · rw [hlocks'', hlocks', hlocks, Io.locks_restored hni hnj]

/-- `install_trans`, one turn: the copy in the log goes to the block. -/
theorem installOne_wp {t : Nat} (h : s.io.Good vs) (hf : Frees E s.io vs) (ht : s.log.lh[t]? = some b) (hb : b < FSSIZE)
    (hhome : A.Home b) (hroom : t + 1 < A.size) (hQ : ∀ u, Wrote s u vs b (s.io.view (A.start + t + 1)) → Q () u) :
    wp (installOne A p t) Q E s := by
  have hfits := A.fits
  have hne : A.start + t + 1 ≠ b := by
    rcases hhome with hlt | hle <;> omega
  unfold installOne
  simp only [wp_bind, wp_get, wp_onIo, List.getD_eq_getElem?_getD, ht, Option.getD_some]
  refine Io.bread2_wp h hf hne (by omega) hb fun i j u hu hsame hbi hbj hij hkeep hni hnj hlocks => ?_
  have hli : u.locks i = some p := by rw [hlocks, update_of_ne hij, update_self]
  have hlj : u.locks j = some p := by rw [hlocks, update_self]
  have hdata : (u.bc.buf i).data = s.io.view (A.start + t + 1) := by
    rw [hu.data_eq (hu.of_lock hli).2, hbi, hu.view_eq, h.view_eq, hsame.pinned, hsame.disk]
  rw [← wp_bind]
  refine Io.write_wp (fun _ => (u.bc.buf i).data) hu hlj hbj fun v hv hdisk hpin hkeep' hlocks' => ?_
  refine (Io.brelse2_wp hv hij (by rw [hlocks', hli]) (by rw [hlocks', hlj]) fun w hw hsame' hkeep'' hlocks'' => ?_).1
  refine hQ _ ⟨hw, ?_, ?_, ?_, ?_, rfl⟩
  · rw [hsame'.disk, hdisk, hsame.disk, hdata]
  · rw [hsame'.pinned, hpin, hsame.pinned]
  · exact fun k hk => (hkeep'' k).trans ((hkeep' k).trans (hkeep k hk))
  · rw [hlocks'', hlocks', hlocks, Io.locks_restored hni hnj]

/-- A buffer of the header block. -/
theorem bread_start_wp {Q : Fin NBUF → Io → Prop} (h : s.io.Good vs) (hf : Frees E s.io vs)
    (hQ : ∀ i t, t.Good (i :: vs) → Io.Same s.io t → (t.bc.buf i).blockno = A.start →
      (∀ k ∈ vs, (t.bc.buf k).blockno = (s.io.bc.buf k).blockno) → s.io.locks i = none →
      t.locks = update s.io.locks i (some p) → Q i t) : wp (bread p ROOTDEV A.start) Q E s.io := by
  have hfits := A.fits
  have hpos := A.pos
  refine Io.bread_wp h (fun hfull => ?_) (fun hlock => ?_) (fun hno => absurd hno (by omega))
    fun i t ht hsame hblock hkeep _ hnone hlocks => hQ i t ht hsame hblock hkeep hnone hlocks
  · rcases hf.bget with hE | ⟨hlen, hp⟩
    · exact hE
    · exact absurd hfull (h.exists_free (by omega) hp)
  · rcases hf.wait with hE | hfree
    · exact hE
    · obtain ⟨j, hj, -⟩ := hlock
      exact absurd (hfree j) hj

/-- `write_head`. -/
theorem writeHead_wp (h : s.io.Good vs) (hf : Frees E s.io vs)
    (hQ : ∀ u, Wrote s u vs A.start (putHeader s.log.lh (s.io.view A.start)) → Q () u) : wp (writeHead A p) Q E s := by
  unfold writeHead
  simp only [wp_bind, wp_get, wp_onIo]
  refine bread_start_wp h hf fun i u hu hsame hbi hkeep hni hlocks => ?_
  have hli : u.locks i = some p := by rw [hlocks, update_self]
  rw [← wp_bind]
  refine Io.write_wp (putHeader s.log.lh) hu hli hbi fun v hv hdisk hpin hkeep' hlocks' => ?_
  refine Io.brelse_wp hv (by rw [hlocks', hli]) fun w hw hsame' hkeep'' hlocks'' => ?_
  rw [List.erase_cons_head] at hw
  refine hQ _ ⟨hw, ?_, ?_, ?_, ?_, rfl⟩
  · rw [hsame'.disk, hdisk, hu.view_eq, h.view_eq, hsame.disk, hsame.pinned]
  · rw [hsame'.pinned, hpin, hsame.pinned]
  · exact fun k hk => (hkeep'' k).trans ((hkeep' k).trans (hkeep k hk))
  · rw [hlocks'', hlocks', hlocks, Function.update_idem, ← hni, Function.update_eq_self]

/-- `read_head`. -/
theorem readHead_wp (h : s.io.Good vs) (hf : Frees E s.io vs)
    (hQ : ∀ u : Store, u.io.Good vs → Io.Same s.io u.io → (∀ k ∈ vs, (u.io.bc.buf k).blockno = (s.io.bc.buf k).blockno) →
      u.io.locks = s.io.locks → u.log = { s.log with lh := headerOf (s.io.view A.start) } → Q () u) :
    wp (readHead A p) Q E s := by
  unfold readHead
  simp only [wp_bind, wp_modify, wp_onIo]
  refine bread_start_wp h hf fun i u hu hsame hbi hkeep hni hlocks => ?_
  have hli : u.locks i = some p := by rw [hlocks, update_self]
  refine Io.brelse_wp hu hli fun w hw hsame' hkeep' hlocks' => ?_
  rw [List.erase_cons_head] at hw
  refine hQ _ hw (hsame.trans hsame') (fun k hk => (hkeep' k).trans (hkeep k hk)) ?_ ?_
  · rw [hlocks', hlocks, Function.update_idem, ← hni, Function.update_eq_self]
  · rw [hu.data_eq (hu.of_lock hli).2, hbi, hu.view_eq, h.view_eq, hsame.disk, hsame.pinned]

/-- A block is changed in its buffer and noted in the header. -/
theorem logWrite_wp {Q : Unit → Store → Prop} {i : Fin NBUF} (v : Block)
    (hbig : LOGSIZE ≤ s.log.lh.length ∨ A.size ≤ s.log.lh.length + 1 → E .tooBig) (hout : s.log.outstanding < 1 → E .outside)
    (hQ : s.log.lh.length < LOGSIZE → s.log.lh.length + 1 < A.size →
      Q () ⟨s.io.modify i fun B => { B with data := v, dirty := true },
        { s.log with lh := absorb (s.io.bc.buf i).blockno s.log.lh }⟩) :
    wp (do onIo (onBuf i fun B => { B with data := v }); logWrite A i) Q E s := by
  unfold logWrite
  simp only [wp_bind, Store.wp_onIo, Io.wp_onBuf, wp_get, wp_ite, wp_throw, wp_set, Io.modify_bc,
    Bcache.modify_buf_self, Io.modify_modify]
  exact ⟨hbig, fun hroom => ⟨hout, fun _ => hQ (by omega) (by omega)⟩⟩

end Store

end OsLab
