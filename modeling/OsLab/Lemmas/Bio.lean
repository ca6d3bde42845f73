import OsLab.Bio
import Mathlib.Data.Fintype.Card

/-!
# What the cache holds

A cache in order (`Bcache.Ok`) has every buffer in the ring, no block in two buffers, and as many references to a buffer as the list
`vs` of those who refer to it says. What matters of it to its users is `entry`: which blocks are there, with what contents, which of
them are dirty and who has locked them. `bgetFind` may drop one block that is clean and not locked (`Evicts`), `breadLock` brings one
in, and the other functions change one entry.

The blocks that are not dirty are as they are on the disk (`Io.Good`), so that a reader can be told what a block is from the disk and
the dirty blocks alone (`pinned`, `view`). Each function of `bio.c` is described by what it does to these two.
-/

namespace OsLab

open Function (update update_self update_of_ne)
open Cmd

/-- A block in the cache. -/
structure BufEntry where
  data : Block
  dirty : Bool
  lock : Option Nat

/-- What a buffer says of its block. -/
def Buf.entry (B : Buf) : BufEntry := ⟨B.data, B.dirty, B.lock⟩

/-- The buffer has the contents of the block. -/
def Buf.caches (B : Buf) (b : Nat) : Bool := B.valid && decide (B.dev = ROOTDEV ∧ B.blockno = b)

/-- When a buffer holds a block. -/
theorem Buf.caches_iff {B : Buf} {b : Nat} : B.caches b = true ↔ B.valid = true ∧ B.dev = ROOTDEV ∧ B.blockno = b := by
  simp [Buf.caches]

namespace Bcache

/-- The block in the cache, if it is there. -/
def entry (bc : Bcache) (b : Nat) : Option BufEntry :=
  ((List.finRange NBUF).find? fun i => (bc.buf i).caches b).map fun i => (bc.buf i).entry

/-- The cache is in order, with `vs` the buffers that are referred to, each as often as it is. -/
structure Ok (bc : Bcache) (vs : List (Fin NBUF)) : Prop where
  ring : ∃ l, bc.links.Holds l ∧ ∀ i, i ∈ l
  fresh : ∀ i, (bc.buf i).dev ≠ ROOTDEV → (bc.buf i).dev = 0 ∧ (bc.buf i).valid = false
  uniq : ∀ i j, (bc.buf i).dev = ROOTDEV → (bc.buf j).dev = ROOTDEV → (bc.buf i).blockno = (bc.buf j).blockno → i = j
  refs : ∀ i, (bc.buf i).refcnt = vs.count i
  used : ∀ i ∈ vs, (bc.buf i).dev = ROOTDEV
  held : ∀ i, (bc.buf i).lock ≠ none → i ∈ vs ∧ (bc.buf i).valid = true
  dirty : ∀ i, (bc.buf i).dirty = true → (bc.buf i).valid = true
  bound : ∀ i, (bc.buf i).valid = true → (bc.buf i).blockno < FSSIZE

/-- The entries are the same, or one that is clean and not locked is gone. -/
def Evicts (bc bc' : Bcache) : Prop :=
  bc'.entry = bc.entry ∨
    ∃ v e, bc.entry v = some e ∧ e.dirty = false ∧ e.lock = none ∧ bc'.entry = update bc.entry v none

variable {bc bc' : Bcache} {vs : List (Fin NBUF)} {i j : Fin NBUF} {b : Nat} {B : Buf} {f : Buf → Buf}

/-! ## Entries -/

/-- Where one buffer alone has the block, the entry is that buffer's. -/
theorem entry_eq_some (hi : (bc.buf i).caches b = true) (hu : ∀ j, (bc.buf j).caches b = true → j = i) :
    bc.entry b = some (bc.buf i).entry := by
  unfold entry
  cases hf : (List.finRange NBUF).find? fun i => (bc.buf i).caches b with
  | none => exact absurd hi (List.find?_eq_none.mp hf i (List.mem_finRange i))
  | some j => rw [hu j (by simpa using List.find?_some hf), Option.map_some]

/-- A block that no buffer holds has no entry. -/
theorem entry_eq_none (h : ∀ j, (bc.buf j).caches b = false) : bc.entry b = none := by
  unfold entry
  rw [List.find?_eq_none.mpr fun j _ => by rw [h j]; exact Bool.false_ne_true, Option.map_none]

/-- Only the buffers that have the block matter. -/
theorem entry_congr (h : ∀ j, (bc'.buf j).caches b = (bc.buf j).caches b)
    (he : ∀ j, (bc.buf j).caches b = true → (bc'.buf j).entry = (bc.buf j).entry) : bc'.entry b = bc.entry b := by
  unfold entry
  simp only [h]
  cases hf : (List.finRange NBUF).find? fun i => (bc.buf i).caches b with
  | none => rfl
  | some j => rw [Option.map_some, Option.map_some, he j (by simpa using List.find?_some hf)]

/-- The entry of a block is that of a buffer that has it. -/
theorem exists_of_entry {e : BufEntry} (he : bc.entry b = some e) : ∃ i, (bc.buf i).caches b = true ∧ e = (bc.buf i).entry := by
  unfold entry at he
  cases hf : (List.finRange NBUF).find? fun i => (bc.buf i).caches b with
  | none => rw [hf] at he; cases he
  | some j =>
    rw [hf, Option.map_some, Option.some.injEq] at he
    exact ⟨j, by simpa using List.find?_some hf, he.symm⟩

/-- The entry of a block is that of its buffer. -/
theorem Ok.entry_of_caches (h : bc.Ok vs) (hi : (bc.buf i).caches b = true) : bc.entry b = some (bc.buf i).entry := by
  refine entry_eq_some hi fun j hj => ?_
  obtain ⟨-, hdi, hbi⟩ := Buf.caches_iff.mp hi
  obtain ⟨-, hdj, hbj⟩ := Buf.caches_iff.mp hj
  exact h.uniq j i hdj hdi (hbj.trans hbi.symm)

/-- A buffer that holds something holds a block of the file system. -/
theorem Ok.dev_of_valid (h : bc.Ok vs) (hv : (bc.buf i).valid = true) : (bc.buf i).dev = ROOTDEV := by
  by_contra hne
  rw [(h.fresh i hne).2] at hv
  exact Bool.false_ne_true hv

theorem Ok.caches_of_valid (h : bc.Ok vs) (hv : (bc.buf i).valid = true) : (bc.buf i).caches (bc.buf i).blockno = true :=
  Buf.caches_iff.mpr ⟨hv, h.dev_of_valid hv, rfl⟩

/-- The entry of a block is that of the buffer that is for it. -/
theorem Ok.eq_of_entry (h : bc.Ok vs) {e : BufEntry} (he : bc.entry b = some e) (hd : (bc.buf i).dev = ROOTDEV)
    (hb : (bc.buf i).blockno = b) : (bc.buf i).valid = true ∧ e = (bc.buf i).entry := by
  obtain ⟨j, hj, rfl⟩ := exists_of_entry he
  obtain ⟨hv, hdj, hbj⟩ := Buf.caches_iff.mp hj
  obtain rfl := h.uniq i j hd hdj (hb.trans hbj.symm)
  exact ⟨hv, rfl⟩

/-! ## One buffer changed -/

@[simp] theorem modify_buf_self (f : Buf → Buf) : (bc.modify i f).buf i = f (bc.buf i) := update_self ..

theorem modify_buf_of_ne (f : Buf → Buf) (hne : j ≠ i) : (bc.modify i f).buf j = bc.buf j := update_of_ne hne ..

/-- A change to the contents, the flags or the lock of a buffer that is for a block. -/
theorem Ok.modify (h : bc.Ok vs) (hd : (bc.buf i).dev = ROOTDEV) (hd' : (f (bc.buf i)).dev = ROOTDEV)
    (hb : (f (bc.buf i)).blockno = (bc.buf i).blockno) (hr : (f (bc.buf i)).refcnt = (bc.buf i).refcnt)
    (hl : (f (bc.buf i)).lock ≠ none → i ∈ vs ∧ (f (bc.buf i)).valid = true)
    (hf : (f (bc.buf i)).dirty = true → (f (bc.buf i)).valid = true) (hn : (f (bc.buf i)).valid = true → (bc.buf i).blockno < FSSIZE) :
    (bc.modify i f).Ok vs := by
  have key : ∀ j, (((bc.modify i f).buf j).dev = ROOTDEV ↔ (bc.buf j).dev = ROOTDEV) ∧
      ((bc.modify i f).buf j).blockno = (bc.buf j).blockno := by
    intro j
    by_cases hj : j = i
    · subst hj
      rw [modify_buf_self]
      exact ⟨iff_of_true hd' hd, hb⟩
    · rw [modify_buf_of_ne f hj]
      exact ⟨Iff.rfl, rfl⟩
  have split : ∀ {P : Fin NBUF → Buf → Prop}, P i (f (bc.buf i)) → (∀ j, P j (bc.buf j)) → ∀ j, P j ((bc.modify i f).buf j) := by
    intro P hi hall j
    by_cases hj : j = i
    · subst hj
      rw [modify_buf_self]
      exact hi
    · rw [modify_buf_of_ne f hj]
      exact hall j
  constructor
  · exact h.ring
  · exact split (P := fun _ B => B.dev ≠ ROOTDEV → B.dev = 0 ∧ B.valid = false) (fun hne => absurd hd' hne) h.fresh
  · intro j k hj hk hjk
    rw [(key j).2, (key k).2] at hjk
    exact h.uniq j k ((key j).1.mp hj) ((key k).1.mp hk) hjk
  · exact split (P := fun j B => B.refcnt = vs.count j) (hr.trans (h.refs i)) h.refs
  · intro j hj
    exact (key j).1.mpr (h.used j hj)
  · exact split (P := fun j B => B.lock ≠ none → j ∈ vs ∧ B.valid = true) hl h.held
  · exact split (P := fun _ B => B.dirty = true → B.valid = true) hf h.dirty
  · exact split (P := fun _ B => B.valid = true → B.blockno < FSSIZE) (fun hv => hb ▸ hn hv) h.bound

/-- The entry of the block is then what the buffer says. -/
theorem Ok.entry_modify (h : bc.Ok vs) (hd : (bc.buf i).dev = ROOTDEV) (hd' : (f (bc.buf i)).dev = ROOTDEV)
    (hb : (f (bc.buf i)).blockno = (bc.buf i).blockno) (hv : (f (bc.buf i)).valid = true) :
    (bc.modify i f).entry = update bc.entry (bc.buf i).blockno (some (f (bc.buf i)).entry) := by
  funext b
  by_cases hbi : b = (bc.buf i).blockno
  · subst hbi
    have hself : (bc.modify i f).buf i = f (bc.buf i) := modify_buf_self f
    rw [update_self, ← hself]
    refine entry_eq_some ?_ fun j hj => ?_
    · rw [modify_buf_self]
      exact Buf.caches_iff.mpr ⟨hv, hd', hb⟩
    · by_contra hne
      rw [modify_buf_of_ne f hne] at hj
      obtain ⟨-, hdj, hbj⟩ := Buf.caches_iff.mp hj
      exact hne (h.uniq j i hdj hd hbj)
  · rw [update_of_ne hbi]
    refine entry_congr (fun j => ?_) fun j hj => ?_
    · by_cases hne : j = i
      · subst hne
        have hno : ∀ B : Buf, B.blockno = (bc.buf j).blockno → B.caches b = false := by
          intro B hB
          by_contra hc
          exact hbi ((Buf.caches_iff.mp (by simpa using hc)).2.2.symm.trans hB)
        rw [modify_buf_self, hno _ hb, hno _ rfl]
      · rw [modify_buf_of_ne f hne]
    · rw [modify_buf_of_ne f fun hne => hbi ?_]
      subst hne
      exact (Buf.caches_iff.mp hj).2.2.symm

/-- A count of references changes no entry. -/
theorem entry_modify_refcnt (n : Buf → Nat) : (bc.modify i fun B => { B with refcnt := n B }).entry = bc.entry := by
  funext b
  refine entry_congr (fun j => ?_) fun j _ => ?_
  · by_cases hne : j = i
    · subst hne
      rw [modify_buf_self]
      rfl
    · rw [modify_buf_of_ne _ hne]
  · by_cases hne : j = i
    · subst hne
      rw [modify_buf_self]
      rfl
    · rw [modify_buf_of_ne _ hne]

/-- A buffer that has not been read has no entry. -/
theorem Ok.entry_of_invalid (h : bc.Ok vs) (hd : (bc.buf i).dev = ROOTDEV) (hv : (bc.buf i).valid = false) :
    bc.entry (bc.buf i).blockno = none := by
  cases he : bc.entry (bc.buf i).blockno with
  | none => rfl
  | some e =>
    rw [(h.eq_of_entry he hd rfl).1] at hv
    exact absurd hv.symm Bool.false_ne_true

/-- A change that leaves a buffer its block. -/
theorem blockno_modify (hf : (f (bc.buf i)).blockno = (bc.buf i).blockno) (j : Fin NBUF) :
    ((bc.modify i f).buf j).blockno = (bc.buf j).blockno := by
  by_cases hj : j = i
  · subst hj
    rw [modify_buf_self, hf]
  · rw [modify_buf_of_ne f hj]

theorem modify_modify (f g : Buf → Buf) : (bc.modify i f).modify i g = bc.modify i fun B => g (f B) := by
  simp [Bcache.modify]

/-! ## References -/

/-- Other references to the same buffers. -/
theorem Ok.recount {vs' : List (Fin NBUF)} (h : bc.Ok vs) (hbuf : ∀ j, bc'.buf j = { bc.buf j with refcnt := vs'.count j })
    (hring : ∃ l, bc'.links.Holds l ∧ ∀ i, i ∈ l) (hused : ∀ j ∈ vs', (bc.buf j).dev = ROOTDEV)
    (hheld : ∀ j, (bc.buf j).lock ≠ none → j ∈ vs') : bc'.Ok vs' where
  ring := hring
  fresh j := by
    rw [hbuf]
    exact h.fresh j
  uniq j k := by
    rw [hbuf, hbuf]
    exact h.uniq j k
  refs j := by rw [hbuf]
  used j hj := by
    rw [hbuf]
    exact hused j hj
  held j := by
    rw [hbuf]
    exact fun hl => ⟨hheld j hl, (h.held j hl).2⟩
  dirty j := by
    rw [hbuf]
    exact h.dirty j
  bound j := by
    rw [hbuf]
    exact h.bound j

/-- One more reference to a buffer. -/
theorem Ok.ref (h : bc.Ok vs) (hd : (bc.buf i).dev = ROOTDEV) : (bc.modify i fun B => { B with refcnt := B.refcnt + 1 }).Ok (i :: vs) := by
  refine h.recount (fun j => ?_) h.ring ?_ fun j hl => List.mem_cons_of_mem i (h.held j hl).1
  · by_cases hj : j = i
    · subst hj
      rw [modify_buf_self, List.count_cons_self, h.refs]
    · rw [modify_buf_of_ne _ hj, List.count_cons_of_ne (Ne.symm hj), ← h.refs]
  · intro j hj
    rcases List.mem_cons.mp hj with rfl | hj
    · exact hd
    · exact h.used j hj

/-- One reference less. Whoever has locked the buffer has a reference of its own. -/
theorem Ok.unref (h : bc.Ok vs) (hl : (bc.buf i).lock ≠ none → i ∈ vs.erase i) {links : Links (Fin NBUF)}
    (hring : ∃ l, links.Holds l ∧ ∀ i, i ∈ l) :
    ({ bc.modify i (fun B => { B with refcnt := B.refcnt - 1 }) with links := links } : Bcache).Ok (vs.erase i) := by
  refine h.recount (fun j => ?_) hring (fun j hj => h.used j (List.mem_of_mem_erase hj)) fun j hlj => ?_
  · by_cases hj : j = i
    · subst hj
      rw [modify_buf_self, List.count_erase_self, h.refs]
    · rw [modify_buf_of_ne _ hj, List.count_erase_of_ne hj, ← h.refs]
  · by_cases hj : j = i
    · subst hj
      exact hl hlj
    · exact (List.mem_erase_of_ne hj).mpr (h.held j hlj).1

/-- A buffer to which nobody refers is given to a block that is not there. -/
theorem Ok.recycle (h : bc.Ok vs) (hr : (bc.buf i).refcnt = 0) (hb : ∀ j, (bc.buf j).dev = ROOTDEV → (bc.buf j).blockno ≠ b) :
    (bc.modify i fun B => { B with dev := ROOTDEV, blockno := b, valid := false, dirty := false, refcnt := 1 }).Ok (i :: vs) := by
  have hi : i ∉ vs := by
    rw [h.refs] at hr
    exact List.count_eq_zero.mp hr
  have hlock : (bc.buf i).lock = none := by
    by_contra hne
    exact hi (h.held i hne).1
  generalize hf : (fun B : Buf => { B with dev := ROOTDEV, blockno := b, valid := false, dirty := false, refcnt := 1 }) = f
  have hself : (bc.modify i f).buf i =
      { bc.buf i with dev := ROOTDEV, blockno := b, valid := false, dirty := false, refcnt := 1 } := by
    rw [modify_buf_self, ← hf]
  constructor
  · exact h.ring
  · intro j
    by_cases hj : j = i
    · subst hj
      rw [hself]
      exact fun hne => absurd rfl hne
    · rw [modify_buf_of_ne f hj]
      exact h.fresh j
  · intro j k
    by_cases hj : j = i <;> by_cases hk : k = i
    · exact fun _ _ _ => hj.trans hk.symm
    · subst hj
      rw [hself, modify_buf_of_ne f hk]
      exact fun _ hdk hbk => absurd hbk.symm (hb k hdk)
    · subst hk
      rw [hself, modify_buf_of_ne f hj]
      exact fun hdj _ hbj => absurd hbj (hb j hdj)
    · rw [modify_buf_of_ne f hj, modify_buf_of_ne f hk]
      exact h.uniq j k
  · intro j
    by_cases hj : j = i
    · subst hj
      rw [hself, List.count_cons_self, List.count_eq_zero.mpr hi]
    · rw [modify_buf_of_ne f hj, List.count_cons_of_ne (Ne.symm hj), h.refs]
  · intro j hj
    by_cases hji : j = i
    · subst hji
      rw [hself]
    · rw [modify_buf_of_ne f hji]
      exact h.used j ((List.mem_cons.mp hj).resolve_left hji)
  · intro j
    by_cases hj : j = i
    · subst hj
      rw [hself]
      exact fun hne => absurd hlock hne
    · rw [modify_buf_of_ne f hj]
      exact fun hl => ⟨List.mem_cons_of_mem i (h.held j hl).1, (h.held j hl).2⟩
  · intro j
    by_cases hj : j = i
    · subst hj
      rw [hself]
      exact fun hd => absurd hd Bool.false_ne_true
    · rw [modify_buf_of_ne f hj]
      exact h.dirty j
  · intro j
    by_cases hj : j = i
    · subst hj
      rw [hself]
      exact fun hv => absurd hv Bool.false_ne_true
    · rw [modify_buf_of_ne f hj]
      exact h.bound j

/-- The block that the buffer was for is then no longer there. -/
theorem Ok.evicts_recycle (h : bc.Ok vs) (hr : (bc.buf i).refcnt = 0) (hdirty : (bc.buf i).dirty = false) :
    bc.Evicts (bc.modify i fun B => { B with dev := ROOTDEV, blockno := b, valid := false, dirty := false, refcnt := 1 }) := by
  generalize hf : (fun B : Buf => { B with dev := ROOTDEV, blockno := b, valid := false, dirty := false, refcnt := 1 }) = f
  have hself : ∀ c, ((bc.modify i f).buf i).caches c = false := by
    intro c
    rw [modify_buf_self, ← hf]
    rfl
  by_cases hv : (bc.buf i).valid = true
  · have hci := h.caches_of_valid hv
    refine .inr ⟨(bc.buf i).blockno, (bc.buf i).entry, h.entry_of_caches hci, hdirty, ?_, ?_⟩
    · by_contra hne
      have hmem := (h.held i hne).1
      rw [h.refs] at hr
      exact List.count_eq_zero.mp hr hmem
    · funext c
      by_cases hc : c = (bc.buf i).blockno
      · subst hc
        rw [update_self]
        refine entry_eq_none fun j => ?_
        by_cases hj : j = i
        · subst hj
          exact hself _
        · rw [modify_buf_of_ne f hj]
          by_contra hcj
          obtain ⟨-, hdj, hbj⟩ := Buf.caches_iff.mp (by simpa using hcj)
          exact hj (h.uniq j i hdj (h.dev_of_valid hv) hbj)
      · rw [update_of_ne hc]
        have hno : (bc.buf i).caches c = false := by
          by_contra hci
          exact hc (Buf.caches_iff.mp (by simpa using hci)).2.2.symm
        refine entry_congr (fun j => ?_) fun j hcj => ?_
        · by_cases hj : j = i
          · subst hj
            rw [hself, hno]
          · rw [modify_buf_of_ne f hj]
        · rw [modify_buf_of_ne f fun hj => ?_]
          subst hj
          rw [hno] at hcj
          exact Bool.false_ne_true hcj
  · refine .inl ?_
    funext c
    have hno : (bc.buf i).caches c = false := by
      by_contra hci
      exact hv (Buf.caches_iff.mp (by simpa using hci)).1
    refine entry_congr (fun j => ?_) fun j hcj => ?_
    · by_cases hj : j = i
      · subst hj
        rw [hself, hno]
      · rw [modify_buf_of_ne f hj]
    · rw [modify_buf_of_ne f fun hj => ?_]
      subst hj
      rw [hno] at hcj
      exact Bool.false_ne_true hcj

/-- A buffer moved to the front of the ring. -/
theorem ring_touch {L : Links (Fin NBUF)} (h : ∃ l, L.Holds l ∧ ∀ i, i ∈ l) (i : Fin NBUF) :
    ∃ l, ((L.unlink i).pushFront i).Holds l ∧ ∀ i, i ∈ l := by
  obtain ⟨l, hl, hall⟩ := h
  obtain ⟨l₁, l₂, rfl⟩ := List.append_of_mem (hall i)
  have hnot : i ∉ l₁ ++ l₂ := fun hi => (List.nodup_middle.mp hl.nodup).notMem hi
  refine ⟨i :: (l₁ ++ l₂), hl.unlink.pushFront hnot, fun j => ?_⟩
  have hj := hall j
  simp only [List.mem_append, List.mem_cons] at hj ⊢
  tauto

/-- A ring made by putting nodes at the front, one after the other. -/
theorem holds_foldl_pushFront {L : Links (Fin NBUF)} {l l' : List (Fin NBUF)} (h : L.Holds l) (hnd : (l' ++ l).Nodup) :
    (l'.foldl Links.pushFront L).Holds (l'.reverse ++ l) := by
  induction l' generalizing L l with
  | nil => exact h
  | cons i l' ih =>
    rw [List.foldl_cons, List.reverse_cons, List.append_assoc, List.singleton_append]
    rw [List.cons_append, List.nodup_cons, List.mem_append, not_or] at hnd
    refine ih (h.pushFront hnd.1.2) (List.nodup_middle.mpr (List.nodup_cons.mpr ⟨?_, hnd.2⟩))
    rw [List.mem_append, not_or]
    exact hnd.1

/-- The cache after `binit`. -/
theorem binit_ok : binit.Ok [] where
  ring := by
    refine ⟨_, holds_foldl_pushFront Links.holds_empty ?_, fun i => ?_⟩
    · rw [List.append_nil]
      exact List.nodup_finRange NBUF
    · rw [List.append_nil, List.mem_reverse]
      exact List.mem_finRange i
  fresh _ _ := ⟨rfl, rfl⟩
  uniq _ _ h := absurd (show (0 : Nat) = ROOTDEV from h) (by decide)
  refs _ := rfl
  used _ h := absurd h List.not_mem_nil
  held _ h := absurd rfl h
  dirty _ h := absurd h Bool.false_ne_true
  bound _ h := absurd h Bool.false_ne_true

end Bcache

/-! ## The cache and the disk -/

namespace Io

/-- The contents of a block, as a reader gets them: from the cache, or else from the disk. -/
def view (s : Io) (b : Nat) : Block := ((s.bc.entry b).map BufEntry.data).getD (s.disk ROOTDEV b)

/-- The contents of a block that is dirty. -/
def pinned (s : Io) (b : Nat) : Option Block := (s.bc.entry b).bind fun e => if e.dirty then some e.data else none

/-- Who has locked each buffer. -/
def locks (s : Io) (i : Fin NBUF) : Option Nat := (s.bc.buf i).lock

/-- The cache is in order and agrees with the disk on every block that is not dirty. -/
structure Good (s : Io) (vs : List (Fin NBUF)) : Prop where
  ok : s.bc.Ok vs
  clean : ∀ b e, s.bc.entry b = some e → e.dirty = false → e.data = s.disk ROOTDEV b

/-- The same blocks, on the disk and in the cache where they are dirty. -/
structure Same (s s' : Io) : Prop where
  disk : s'.disk = s.disk
  pinned : s'.pinned = s.pinned

variable {s t u : Io} {vs : List (Fin NBUF)} {i : Fin NBUF} {b p : Nat} {E : FsStop → Prop} {e : BufEntry}

theorem Same.trans (h : Same s t) (h' : Same t u) : Same s u := ⟨h'.disk.trans h.disk, h'.pinned.trans h.pinned⟩

/-- What a reader gets, from the disk and the dirty blocks. -/
theorem Good.view_eq (h : s.Good vs) (b : Nat) : s.view b = (s.pinned b).getD (s.disk ROOTDEV b) := by
  unfold view pinned
  cases he : s.bc.entry b with
  | none => rfl
  | some e =>
    cases hd : e.dirty with
    | true => simp [hd]
    | false => simp [hd, h.clean b e he hd]

/-- What a buffer holds is what a reader gets. -/
theorem Good.data_eq (h : s.Good vs) (hv : (s.bc.buf i).valid = true) : (s.bc.buf i).data = s.view (s.bc.buf i).blockno := by
  unfold view
  rw [h.ok.entry_of_caches (h.ok.caches_of_valid hv)]
  rfl

@[simp] theorem modify_bc (f : Buf → Buf) : (s.modify i f).bc = s.bc.modify i f := rfl

@[simp] theorem modify_disk (f : Buf → Buf) : (s.modify i f).disk = s.disk := rfl

@[simp] theorem write_bc (dev : Nat) (d : Block) : (s.write dev b d).bc = s.bc := rfl

theorem modify_modify (f g : Buf → Buf) : (s.modify i f).modify i g = s.modify i fun B => g (f B) := by
  simp [Io.modify, Bcache.modify_modify]

theorem blockno_modify {f : Buf → Buf} (hf : ∀ B, (f B).blockno = B.blockno) (j : Fin NBUF) :
    ((s.modify i f).bc.buf j).blockno = (s.bc.buf j).blockno := Bcache.blockno_modify (hf _) j

/-- The locks, after a change of one buffer. -/
theorem locks_modify (f : Buf → Buf) : (s.modify i f).locks = update s.locks i (f (s.bc.buf i)).lock := by
  funext j
  by_cases hj : j = i
  · subst hj
    rw [update_self, locks, modify_bc, Bcache.modify_buf_self]
  · rw [update_of_ne hj, locks, modify_bc, Bcache.modify_buf_of_ne f hj, locks]

theorem locks_modify_same {f : Buf → Buf} (hf : ∀ B, (f B).lock = B.lock) : (s.modify i f).locks = s.locks := by
  rw [locks_modify, hf, ← locks, Function.update_eq_self]

@[simp] theorem wp_onBuf (f : Buf → Buf) {Q : Unit → Io → Prop} : wp (onBuf i f) Q E s ↔ Q () (s.modify i f) := Iff.rfl

/-! ## Entries and dirty blocks -/

/-- A block dropped that is as it is on the disk. -/
theorem Good.evicts (h : s.Good vs) {vt : List (Fin NBUF)} (hok : t.bc.Ok vt) (hdisk : t.disk = s.disk)
    (hev : s.bc.Evicts t.bc) : t.Good vt ∧ Same s t := by
  rcases hev with he | ⟨v, e, hv, hd, -, he⟩
  · refine ⟨⟨hok, fun b e hb => ?_⟩, ⟨hdisk, ?_⟩⟩
    · rw [hdisk]
      exact h.clean b e (he ▸ hb)
    · unfold pinned
      rw [he]
  · refine ⟨⟨hok, fun b e' hb => ?_⟩, ⟨hdisk, ?_⟩⟩
    · rw [he] at hb
      by_cases hbv : b = v
      · rw [hbv, update_self] at hb
        cases hb
      · rw [update_of_ne hbv] at hb
        rw [hdisk]
        exact h.clean b e' hb
    · funext b
      unfold pinned
      rw [he]
      by_cases hbv : b = v
      · rw [hbv, update_self, hv]
        simp [hd]
      · rw [update_of_ne hbv]

/-- One entry changed: the dirty blocks. -/
theorem pinned_of_update (he : t.bc.entry = update s.bc.entry b (some e)) :
    t.pinned = update s.pinned b (if e.dirty then some e.data else none) := by
  funext c
  unfold pinned
  rw [he]
  by_cases hc : c = b
  · rw [hc, update_self, update_self]
    rfl
  · rw [update_of_ne hc, update_of_ne hc]

/-- One entry changed, with the block on the disk as the entry says when it is not dirty. -/
theorem Good.of_update (h : s.Good vs) (hok : t.bc.Ok vs) (he : t.bc.entry = update s.bc.entry b (some e))
    (hdisk : ∀ c, c ≠ b → t.disk ROOTDEV c = s.disk ROOTDEV c) (hclean : e.dirty = false → e.data = t.disk ROOTDEV b) : t.Good vs := by
  refine ⟨hok, fun c e' hc => ?_⟩
  rw [he] at hc
  by_cases hcb : c = b
  · rw [hcb, update_self, Option.some.injEq] at hc
    rw [hcb, ← hc]
    exact hclean
  · rw [update_of_ne hcb] at hc
    rw [hdisk c hcb]
    exact h.clean c e' hc

/-- An entry whose contents and flag stay, or that is read from the disk, changes nothing. -/
theorem Good.same_of_update (h : s.Good vs) {e' : BufEntry} (hok : t.bc.Ok vs) (hdisk : t.disk = s.disk)
    (hent : t.bc.entry = update s.bc.entry b (some e')) (hdata : e'.data = e.data) (hdirty : e'.dirty = e.dirty)
    (he : s.bc.entry b = some e ∨ s.bc.entry b = none ∧ e.dirty = false ∧ e.data = s.disk ROOTDEV b) : t.Good vs ∧ Same s t := by
  refine ⟨h.of_update hok hent (fun c _ => by rw [hdisk]) fun hc => ?_, ⟨hdisk, ?_⟩⟩
  · rw [hdata, hdisk]
    rcases he with he | ⟨-, -, he⟩
    · exact h.clean b e he (hdirty ▸ hc)
    · exact he
  · rw [pinned_of_update hent, hdirty, hdata]
    refine Function.update_eq_self_iff.mpr ?_
    unfold pinned
    rcases he with he | ⟨he, hd, -⟩
    · rw [he]
      rfl
    · rw [he, hd]
      rfl

theorem locks_binit (disk : Nat → Nat → Block) : (⟨disk, binit⟩ : Io).locks = fun _ => none := by
  funext i
  unfold locks binit
  rfl

/-- A machine that has just been started. -/
theorem good_binit (disk : Nat → Nat → Block) : (⟨disk, binit⟩ : Io).Good [] ∧ (⟨disk, binit⟩ : Io).pinned = (fun _ => none) := by
  have hnone : ∀ b, binit.entry b = none := fun b => Bcache.entry_eq_none fun _ => rfl
  refine ⟨⟨Bcache.binit_ok, fun b e he => ?_⟩, ?_⟩
  · rw [show (⟨disk, binit⟩ : Io).bc = binit from rfl, hnone b] at he
    cases he
  · funext b
    unfold pinned
    rw [show (⟨disk, binit⟩ : Io).bc = binit from rfl, hnone b, Option.bind_none]

/-! ## What each function does -/

/-- `bgetFind`: the buffer is for the block and has one more reference. -/
theorem bgetFind_wp {Q : Fin NBUF → Io → Prop} (h : s.Good vs)
    (hE : (∀ j, (s.bc.buf j).refcnt ≠ 0 ∨ (s.bc.buf j).dirty = true) → E .bget)
    (hQ : ∀ i s', s'.Good (i :: vs) → Same s s' → (s'.bc.buf i).blockno = b →
      (∀ j ∈ vs, (s'.bc.buf j).blockno = (s.bc.buf j).blockno) → s'.locks = s.locks → Q i s') :
    wp (bgetFind ROOTDEV b) Q E s := by
  obtain ⟨l, hl, hall⟩ := h.ok.ring
  have hlen : l.length < NBUF + 1 := by
    have := hl.nodup.length_le_card
    rw [Fintype.card_fin] at this
    omega
  unfold bgetFind
  simp only [wp_bind, wp_get, hl.scan_next _ hlen, hl.scan_prev _ hlen]
  cases hhit : l.find? fun i => decide ((s.bc.buf i).dev = ROOTDEV ∧ (s.bc.buf i).blockno = b) with
  | some i =>
    have hi := List.find?_some hhit
    rw [decide_eq_true_eq] at hi
    simp only [wp_bind, wp_onBuf, wp_pure]
    obtain ⟨hgood, hsame⟩ := h.evicts (t := s.modify i fun B => { B with refcnt := B.refcnt + 1 }) (h.ok.ref hi.1) rfl
      (.inl (Bcache.entry_modify_refcnt fun B => B.refcnt + 1))
    refine hQ i _ hgood hsame ?_ (fun j _ => blockno_modify (by exact fun _ => rfl) j) (locks_modify_same (by exact fun _ => rfl))
    rw [modify_bc, Bcache.modify_buf_self]
    exact hi.2
  | none =>
    have hmiss : ∀ j, (s.bc.buf j).dev = ROOTDEV → (s.bc.buf j).blockno ≠ b := by
      intro j hd hb
      have := List.find?_eq_none.mp hhit j (hall j)
      rw [decide_eq_true_eq] at this
      exact this ⟨hd, hb⟩
    cases hlru : l.reverse.find? fun i => decide ((s.bc.buf i).refcnt = 0 ∧ (s.bc.buf i).dirty = false) with
    | none =>
      refine hE fun j => ?_
      have hj := List.find?_eq_none.mp hlru j (List.mem_reverse.mpr (hall j))
      rw [decide_eq_true_eq, not_and_or, Bool.not_eq_false] at hj
      exact hj
    | some i =>
      have hi := List.find?_some hlru
      rw [decide_eq_true_eq] at hi
      simp only [wp_bind, wp_onBuf, wp_pure]
      obtain ⟨hgood, hsame⟩ := h.evicts
        (t := s.modify i fun B => { B with dev := ROOTDEV, blockno := b, valid := false, dirty := false, refcnt := 1 })
        (h.ok.recycle hi.1 hmiss) rfl (h.ok.evicts_recycle hi.1 hi.2)
      refine hQ i _ hgood hsame ?_ (fun j hj => ?_) (locks_modify_same (by exact fun _ => rfl))
      · rw [modify_bc, Bcache.modify_buf_self]
      · rw [modify_bc, Bcache.modify_buf_of_ne _ fun hji => ?_]
        subst hji
        have hcount := hi.1
        rw [h.ok.refs] at hcount
        exact List.count_eq_zero.mp hcount hj

/-- `breadLock`: the buffer is read and locked by the caller. -/
theorem breadLock_wp {Q : Unit → Io → Prop} (h : s.Good vs) (hi : i ∈ vs) (hb : (s.bc.buf i).blockno = b)
    (hwait : s.locks i ≠ none → E .wait) (hno : FSSIZE ≤ b → E .blockno)
    (hQ : ∀ s', s'.Good vs → Same s s' → (∀ j, (s'.bc.buf j).blockno = (s.bc.buf j).blockno) → b < FSSIZE → s.locks i = none →
      s'.locks = update s.locks i (some p) → Q () s') :
    wp (breadLock p i) Q E s := by
  have hd := h.ok.used i hi
  unfold breadLock acquiresleep
  simp only [wp_bind, wp_get, wp_ite, wp_throw, wp_onBuf, wp_pure, modify_bc, Bcache.modify_buf_self]
  refine ⟨hwait, fun hl => ⟨fun hv => ?_, fun hv => ?_⟩⟩
  · -- The buffer is read from the disk.
    rw [not_not] at hl
    unfold iderw
    simp only [wp_bind, wp_get, wp_ite, wp_throw, wp_set, modify_bc, Bcache.modify_buf_self, modify_disk,
      modify_modify, holdingsleep, decide_eq_false_iff_not, not_true, not_false_iff, false_imp_iff, true_imp_iff, true_and, hb]
    have hclean : (s.bc.buf i).dirty = false := by
      by_contra hdirty
      rw [h.ok.dirty i (by simpa using hdirty)] at hv
      exact Bool.false_ne_true hv.symm
    refine ⟨fun hidle => absurd (hv.symm.trans hidle.1) Bool.false_ne_true, fun _ => ⟨hno, fun hlt =>
      ⟨fun hdirty => absurd (hclean.symm.trans hdirty) Bool.false_ne_true, fun _ => ?_⟩⟩⟩
    have hok := h.ok.modify (f := fun B => { B with valid := true, lock := some p, data := s.disk B.dev B.blockno }) hd hd rfl rfl
      (fun _ => ⟨hi, rfl⟩) (fun _ => rfl) fun _ => by rw [hb]; omega
    have hent := h.ok.entry_modify (f := fun B => { B with valid := true, lock := some p, data := s.disk B.dev B.blockno }) hd hd rfl rfl
    rw [hb] at hent
    obtain ⟨hgood, hsame⟩ := h.same_of_update (e := ⟨s.disk ROOTDEV b, false, none⟩)
      (t := s.modify i fun B => { B with valid := true, lock := some p, data := s.disk B.dev B.blockno }) hok rfl hent
      (by simp only [Buf.entry, hd]) hclean (.inr ⟨hb ▸ h.ok.entry_of_invalid hd hv, rfl, rfl⟩)
    exact hQ _ hgood hsame (fun j => blockno_modify (by exact fun _ => rfl) j) (by omega) hl (locks_modify _)
  · rw [not_not] at hl
    have hv : (s.bc.buf i).valid = true := by simpa using hv
    have hok := h.ok.modify (f := fun B => { B with lock := some p }) hd hd rfl rfl (fun _ => ⟨hi, hv⟩) (h.ok.dirty i) fun _ =>
      h.ok.bound i hv
    have hent := h.ok.entry_modify (f := fun B => { B with lock := some p }) hd hd rfl hv
    obtain ⟨hgood, hsame⟩ := h.same_of_update (t := s.modify i fun B => { B with lock := some p }) (e := (s.bc.buf i).entry) hok rfl hent
      rfl rfl (.inl (h.ok.entry_of_caches (h.ok.caches_of_valid hv)))
    exact hQ _ hgood hsame (fun j => blockno_modify (by exact fun _ => rfl) j) (hb ▸ h.ok.bound i hv) hl (locks_modify _)

/-- `bread`: a buffer for the block, locked by the caller. -/
theorem bread_wp {Q : Fin NBUF → Io → Prop} (h : s.Good vs)
    (hE : (∀ j, (s.bc.buf j).refcnt ≠ 0 ∨ (s.bc.buf j).dirty = true) → E .bget)
    (hwait : (∃ j, s.locks j ≠ none ∧ (s.bc.buf j).blockno = b) → E .wait)
    (hno : FSSIZE ≤ b → E .blockno)
    (hQ : ∀ i s', s'.Good (i :: vs) → Same s s' → (s'.bc.buf i).blockno = b →
      (∀ j ∈ vs, (s'.bc.buf j).blockno = (s.bc.buf j).blockno) → b < FSSIZE → s.locks i = none →
      s'.locks = update s.locks i (some p) → Q i s') :
    wp (bread p ROOTDEV b) Q E s := by
  unfold bread
  rw [wp_bind]
  refine bgetFind_wp h hE fun i s₁ h₁ hsame₁ hb₁ hkeep₁ hlocks₁ => ?_
  rw [wp_bind]
  refine breadLock_wp h₁ List.mem_cons_self hb₁ (fun hl => ?_) hno fun s₂ h₂ hsame₂ hkeep₂ hlt hnone hlocks₂ => ?_
  · rw [hlocks₁] at hl
    exact hwait ⟨i, hl, (hkeep₁ i (h.ok.held i hl).1).symm.trans hb₁⟩
  rw [wp_pure]
  refine hQ i s₂ h₂ (hsame₁.trans hsame₂) ((hkeep₂ i).trans hb₁) (fun j hj => (hkeep₂ j).trans (hkeep₁ j hj)) hlt (hlocks₁ ▸ hnone) ?_
  rw [hlocks₂, hlocks₁]

/-- A buffer that is locked has been read. -/
theorem Good.of_lock (h : s.Good vs) (hl : s.locks i = some p) : i ∈ vs ∧ (s.bc.buf i).valid = true :=
  h.ok.held i (by rw [show (s.bc.buf i).lock = some p from hl]; exact Option.some_ne_none p)

/-- The contents of a locked buffer changed, and `bwrite`: the block is written. -/
theorem write_wp {Q : Unit → Io → Prop} (g : Block → Block) (h : s.Good vs) (hl : s.locks i = some p) (hb : (s.bc.buf i).blockno = b)
    (hQ : ∀ s', s'.Good vs → s'.disk ROOTDEV = update (s.disk ROOTDEV) b (g (s.view b)) →
      s'.pinned = update s.pinned b none → (∀ j, (s'.bc.buf j).blockno = (s.bc.buf j).blockno) → s'.locks = s.locks → Q () s') :
    wp (do onBuf i fun B => { B with data := g B.data }; bwrite p i) Q E s := by
  obtain ⟨hi, hv⟩ := h.of_lock hl
  have hd := h.ok.used i hi
  have hl : (s.bc.buf i).lock = some p := hl
  have hbound := h.ok.bound i hv
  have hdata := h.data_eq hv
  unfold bwrite iderw
  simp only [wp_bind, wp_get, wp_ite, wp_throw, wp_onBuf, wp_set, modify_bc, Bcache.modify_buf_self, modify_disk,
    holdingsleep, decide_eq_false_iff_not, hl, not_true, not_false_iff, false_imp_iff, true_imp_iff, true_and, and_true, hdata, hb, hd]
  rw [hb] at hbound
  refine ⟨fun hidle => absurd hidle.2.symm Bool.false_ne_true, fun _ => ⟨fun hlt => absurd hbound (by omega), fun _ => ?_⟩⟩
  generalize hs' : ((((s.modify i fun B => { B with data := g B.data }).modify i fun B => { B with dirty := true }).write ROOTDEV b
      (g (s.view b))).modify i fun B => { B with valid := true, dirty := false }) = s'
  have hbc : s'.bc = s.bc.modify i fun B => { B with valid := true, dirty := false, data := g B.data } := by
    simp only [← hs', modify_bc, write_bc, Bcache.modify_modify]
  have hdisk : s'.disk ROOTDEV = update (s.disk ROOTDEV) b (g (s.view b)) := by
    simp only [← hs', modify_disk, Io.write, update_self]
  have hok := h.ok.modify (f := fun B => { B with valid := true, dirty := false, data := g B.data }) hd hd rfl rfl (fun _ => ⟨hi, rfl⟩)
    (fun _ => rfl) fun _ => by rw [hb]; exact hbound
  have hent := h.ok.entry_modify (f := fun B => { B with valid := true, dirty := false, data := g B.data }) hd hd rfl rfl
  rw [← hbc] at hok hent
  rw [hb] at hent
  refine hQ s' (h.of_update hok hent ?_ ?_) hdisk (pinned_of_update hent) ?_ ?_
  · intro c hc
    rw [hdisk]
    exact update_of_ne hc ..
  · intro _
    rw [hdisk, update_self]
    simp only [Buf.entry, hdata, hb]
  · intro j
    rw [hbc]
    exact Bcache.blockno_modify (by rfl) j
  · have hlocks := locks_modify_same (s := s) (i := i) (f := fun B => { B with valid := true, dirty := false, data := g B.data })
      fun _ => rfl
    funext j
    have hj := congrFun hlocks j
    rwa [locks, modify_bc, ← hbc] at hj

/-- The contents of a locked buffer changed and the buffer marked dirty. -/
theorem Good.overwrite (h : s.Good vs) (d : Block) (hl : s.locks i = some p) (hb : (s.bc.buf i).blockno = b) :
    (s.modify i fun B => { B with data := d, dirty := true }).Good vs ∧
      (s.modify i fun B => { B with data := d, dirty := true }).pinned = update s.pinned b (some d) := by
  obtain ⟨hi, hv⟩ := h.of_lock hl
  have hd := h.ok.used i hi
  have hok := h.ok.modify (f := fun B => { B with data := d, dirty := true }) hd hd rfl rfl (fun _ => ⟨hi, hv⟩) (fun _ => hv) fun _ =>
    h.ok.bound i hv
  have hent := h.ok.entry_modify (f := fun B => { B with data := d, dirty := true }) hd hd rfl hv
  rw [hb] at hent
  refine ⟨h.of_update hok hent (fun _ _ => rfl) fun hc => absurd hc.symm Bool.false_ne_true, ?_⟩
  exact pinned_of_update (t := s.modify i fun B => { B with data := d, dirty := true }) hent

/-- `releasesleep`. -/
theorem Good.releasesleep (h : s.Good vs) (hl : s.locks i = some p) :
    (s.modify i fun B => { B with lock := none }).Good vs ∧ Same s (s.modify i fun B => { B with lock := none }) := by
  obtain ⟨hi, hv⟩ := h.of_lock hl
  have hd := h.ok.used i hi
  have hok := h.ok.modify (f := fun B => { B with lock := none }) hd hd rfl rfl (fun hne => absurd rfl hne) (h.ok.dirty i) fun _ =>
    h.ok.bound i hv
  have hent := h.ok.entry_modify (f := fun B => { B with lock := none }) hd hd rfl hv
  exact h.same_of_update (t := s.modify i fun B => { B with lock := none }) (e := (s.bc.buf i).entry) hok rfl hent rfl rfl
    (.inl (h.ok.entry_of_caches (h.ok.caches_of_valid hv)))

/-- `bput`: a reference less. Whoever has locked the buffer has a reference of its own. -/
theorem bput_wp {Q : Unit → Io → Prop} (h : s.Good vs) (hl : s.locks i ≠ none → i ∈ vs.erase i)
    (hQ : ∀ s', s'.Good (vs.erase i) → Same s s' → (∀ j, (s'.bc.buf j).blockno = (s.bc.buf j).blockno) → s'.locks = s.locks → Q () s') :
    wp (bput i) Q E s := by
  unfold bput
  simp only [wp_bind, wp_get, wp_onBuf]
  have hent : (s.bc.modify i fun B => { B with refcnt := B.refcnt - 1 }).entry = s.bc.entry :=
    Bcache.entry_modify_refcnt fun B => B.refcnt - 1
  have hkeep : ∀ j, ((s.bc.modify i fun B => { B with refcnt := B.refcnt - 1 }).buf j).blockno = (s.bc.buf j).blockno :=
    Bcache.blockno_modify rfl
  have hlocks : (s.modify i fun B => { B with refcnt := B.refcnt - 1 }).locks = s.locks := locks_modify_same fun _ => rfl
  refine (wp_ite _).mpr ⟨fun _ => ?_, fun _ => ?_⟩
  · obtain ⟨hgood, hsame⟩ := h.evicts (t := ⟨s.disk, { s.bc.modify i (fun B => { B with refcnt := B.refcnt - 1 }) with
      links := (s.bc.links.unlink i).pushFront i }⟩) (h.ok.unref hl (Bcache.ring_touch h.ok.ring i)) rfl (.inl hent)
    exact hQ _ hgood hsame hkeep hlocks
  · obtain ⟨hgood, hsame⟩ := h.evicts (t := s.modify i fun B => { B with refcnt := B.refcnt - 1 }) (h.ok.unref hl h.ok.ring) rfl
      (.inl hent)
    exact hQ _ hgood hsame hkeep hlocks

/-- `brelse` of a buffer that the caller has locked. -/
theorem brelse_wp {Q : Unit → Io → Prop} (h : s.Good vs) (hl : s.locks i = some p)
    (hQ : ∀ s', s'.Good (vs.erase i) → Same s s' → (∀ j, (s'.bc.buf j).blockno = (s.bc.buf j).blockno) →
      s'.locks = update s.locks i none → Q () s') :
    wp (brelse p i) Q E s := by
  obtain ⟨hgood, hsame⟩ := h.releasesleep hl
  have hlock : (s.bc.buf i).lock = some p := hl
  unfold brelse OsLab.releasesleep
  simp only [wp_bind, wp_get, wp_ite, wp_throw, wp_onBuf, holdingsleep, decide_eq_false_iff_not, hlock, not_true,
    not_false_iff, false_imp_iff, true_imp_iff, true_and]
  refine bput_wp hgood (fun hne => ?_) fun s' hgood' hsame' hkeep hlocks => ?_
  · rw [locks_modify, update_self] at hne
    exact absurd rfl hne
  · refine hQ s' hgood' (hsame.trans hsame') (fun j => (hkeep j).trans (blockno_modify (by exact fun _ => rfl) j)) ?_
    rw [hlocks, locks_modify]

end Io

end OsLab
