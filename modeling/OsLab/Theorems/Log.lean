import OsLab.Lemmas.Log

/-!
# No operation is on the disk in part

The machine of `Log` is a disk with transactions (`Txn`): what is stable is what the disk comes to when its log is written out, and what
is current is what a reader gets from the cache. A crash may come at any step, during a commit and during a recovery too.
-/

namespace OsLab

open Function (update update_self update_of_ne)

namespace Fs

variable (A : LogArea)

/-- The contents of a block, as a reader gets them once `initlog` has come back. -/
def current (s : Fs) (b : Nat) : Block := if s.phase.starting then recovered A (s.io.disk ROOTDEV) b else s.io.view b

/-- What the machine is as a disk with transactions, over the blocks outside the log. -/
def txn (s : Fs) : Txn { b // A.Home b } Block where
  stable b := recovered A (s.io.disk ROOTDEV) b.1
  current b := s.current A b.1
  active := s.log.outstanding

/-- What a step of the machine is for the disk with transactions, if it is anything: `begin_op` when there is room, `log_write`, `end_op`,
the first `write_head` of `commit`, and a crash. -/
def txnAct (s : Fs) : FsAct → Option (TxnAct { b // A.Home b } Block)
  | .beginOp _ => if s.log.full then none else some .start
  | .logWrite _ i data => if h : A.Home (s.io.bc.buf i).blockno then some (.write ⟨_, h⟩ data) else none
  | .endOp _ => some .finish
  | .commit => if s.phase = .writeHead then some .commit else none
  | .crash => some .crash
  | _ => none

/-- What was last written to each block, after one more step: a crash takes back what the log on the disk does not have. -/
def lastWritten (s : Fs) (f : Nat → Block) : FsAct → Nat → Block
  | .logWrite _ i data => update f (s.io.bc.buf i).blockno data
  | .crash => recovered A (s.io.disk ROOTDEV)
  | _ => f

/-- The machine, with what was last written to each block. -/
def noted : Sys (Fs × (Nat → Block)) FsAct := (sys A).noting (fun s f => f = s.io.disk ROOTDEV) (lastWritten A)

/-- The buffers that are referred to: by those who wait for them, by those who leave them, and by those who have locked them. -/
def refs (s : Fs) : List (Fin NBUF) :=
  s.waiting.map Prod.snd ++ s.leaving.map Prod.snd ++ (List.finRange NBUF).filter fun i => (s.io.locks i).isSome

end Fs

namespace LogAux

open Fs

variable {A : LogArea} {s s' : Fs} {d d' : Nat → Block} {i : Fin NBUF} {p n : Nat}

/-! ## Headers and what they ask for -/

/-- A list of blocks that the log can hold. -/
structure HeaderOk (A : LogArea) (l : List Nat) : Prop where
  nodup : l.Nodup
  home : ∀ b ∈ l, A.Home b
  bound : ∀ b ∈ l, b < FSSIZE
  length : l.length ≤ LOGSIZE
  fits : l.length < A.size

theorem HeaderOk.nil : HeaderOk A [] := by
  have hpos := A.pos
  constructor <;> simp [hpos]

/-- The places that are written are those of the header. -/
theorem map_fst_redo (d : Nat → Block) : (redo A d).map Prod.fst = headerOf (d A.start) := by
  unfold redo
  refine List.ext_getElem? fun i => ?_
  rw [List.getElem?_map, List.getElem?_mapIdx, Option.map_map]
  exact Option.map_id'

theorem recovered_of_not_mem {b : Nat} (h : b ∉ headerOf (d A.start)) : recovered A d b = d b :=
  install_of_not_mem (by rwa [map_fst_redo])

theorem recovered_of_getElem? {b i : Nat} (h : HeaderOk A (headerOf (d A.start))) (hi : (headerOf (d A.start))[i]? = some b) :
    recovered A d b = d (A.start + i + 1) := by
  refine install_of_mem (by rw [map_fst_redo]; exact h.nodup) ?_
  refine List.mem_of_getElem? (i := i) ?_
  unfold redo
  rw [List.getElem?_mapIdx, hi, Option.map_some]

theorem recovered_of_empty (h : headerOf (d A.start) = []) : recovered A d = d := by
  unfold recovered redo
  rw [h]
  rfl

/-- A block that the header names, written while the log is written out, makes no difference. -/
theorem recovered_update {b : Nat} {v : Block} (h : HeaderOk A (headerOf (d A.start))) (hb : b ∈ headerOf (d A.start)) :
    recovered A (update d b v) = recovered A d := by
  have hpos := A.pos
  have hlog : ∀ c, A.start ≤ c → c < A.start + A.size → update d b v c = d c := by
    intro c h1 h2
    refine update_of_ne (fun hcb => ?_) _ _
    rcases h.home b hb with hlt | hle <;> omega
  have hhead : headerOf (update d b v A.start) = headerOf (d A.start) := by rw [hlog A.start (Nat.le_refl _) (by omega)]
  have hredo : redo A (update d b v) = redo A d := by
    unfold redo
    rw [hhead]
    refine List.ext_getElem? fun i => ?_
    rw [List.getElem?_mapIdx, List.getElem?_mapIdx]
    cases hi : (headerOf (d A.start))[i]? with
    | none => rfl
    | some c =>
      have hlt := (List.getElem?_eq_some_iff.mp hi).1
      have hfits := h.fits
      rw [Option.map_some, Option.map_some, hlog _ (by omega) (by omega)]
  unfold recovered
  rw [hredo]
  refine install_of_partial fun i hi => ?_
  rw [map_fst_redo] at hi
  refine update_of_ne (fun hib => hi ?_) _ _
  rw [hib]
  exact hb

/-! ## The abstract disk -/

theorem current_of_up (h : s.phase.starting = false) (b : Nat) : s.current A b = s.io.view b := by
  unfold Fs.current
  rw [h]
  rfl

theorem current_of_starting (h : s.phase.starting = true) (b : Nat) : s.current A b = recovered A (s.io.disk ROOTDEV) b := by
  unfold Fs.current
  rw [h, if_pos rfl]

theorem txn_eq (hs : ∀ b, A.Home b → recovered A (s'.io.disk ROOTDEV) b = recovered A (s.io.disk ROOTDEV) b)
    (hc : ∀ b, A.Home b → s'.current A b = s.current A b) (ha : s'.log.outstanding = s.log.outstanding) : s'.txn A = s.txn A := by
  unfold Fs.txn
  rw [ha]
  exact congrArg₂ (fun f g => Txn.mk f g s.log.outstanding) (funext fun b => hs b.1 b.2) (funext fun b => hc b.1 b.2)

/-! ## References -/

theorem count_refs (s : Fs) (j : Fin NBUF) :
    s.refs.count j = (s.waiting.map Prod.snd).count j + (s.leaving.map Prod.snd).count j + if (s.io.locks j).isSome then 1 else 0 := by
  unfold refs
  rw [List.count_append, List.count_append]
  congr 1
  by_cases hj : (s.io.locks j).isSome = true
  · rw [if_pos hj, List.count_eq_one_of_mem ((List.nodup_finRange NBUF).filter _)]
    exact List.mem_filter.mpr ⟨List.mem_finRange j, hj⟩
  · rw [if_neg hj, List.count_eq_zero]
    exact fun hmem => hj (List.mem_filter.mp hmem).2

/-- The order of the references does not matter. -/
theorem good_of_count {io : Io} {vs vs' : List (Fin NBUF)} (h : io.Good vs) (hc : ∀ j, vs'.count j = vs.count j) : io.Good vs' := by
  have hperm : vs'.Perm vs := List.perm_iff_count.mpr hc
  refine ⟨⟨h.ok.ring, h.ok.fresh, h.ok.uniq, ?_, ?_, ?_, h.ok.dirty, h.ok.bound⟩, h.clean⟩
  · exact fun j => (h.ok.refs j).trans (hc j).symm
  · exact fun j hj => h.ok.used j (hperm.mem_iff.mp hj)
  · exact fun j hj => ⟨hperm.mem_iff.mpr (h.ok.held j hj).1, (h.ok.held j hj).2⟩

theorem count_map_erase {l : List (Nat × Fin NBUF)} {a : Nat × Fin NBUF} (h : a ∈ l) (j : Fin NBUF) :
    (l.map Prod.snd).count j = ((l.erase a).map Prod.snd).count j + if j = a.2 then 1 else 0 := by
  rw [((List.perm_cons_erase h).map Prod.snd).count_eq j, List.map_cons, List.count_cons]
  congr 1
  by_cases hj : j = a.2
  · rw [if_pos hj, if_pos (beq_iff_eq.mpr hj.symm)]
  · rw [if_neg hj, if_neg fun hb => hj (beq_iff_eq.mp hb).symm]

/-! ## The invariant -/

/-- The blocks that are dirty. -/
def pins (s : Fs) : List Nat :=
  match s.phase with
  | .up | .writeLog _ | .writeHead => s.log.lh
  | .install t => s.log.lh.drop t
  | _ => []

/-- The log on the disk has a copy of each block of the list, up to the place `t`, that is as `f` says. -/
def Copied (A : LogArea) (d : Nat → Block) (f : Nat → Block) (l : List Nat) (t : Nat) : Prop :=
  ∀ i b, i < t → l[i]? = some b → f b = d (A.start + i + 1)

/-- What holds of the log in each phase. -/
def PhaseOk (A : LogArea) (s : Fs) : Prop :=
  let d := s.io.disk ROOTDEV
  let header := headerOf (d A.start)
  match s.phase with
  | .up => s.log.committing = false ∧ header = [] ∧ (s.log.outstanding = 0 → s.log.lh = [])
  | .writeLog t => s.log.committing = true ∧ s.log.outstanding = 0 ∧ header = [] ∧ Copied A d s.io.view s.log.lh t
  | .writeHead => s.log.committing = true ∧ s.log.outstanding = 0 ∧ header = [] ∧ Copied A d s.io.view s.log.lh s.log.lh.length
  | .install _ => s.log.committing = true ∧ s.log.outstanding = 0 ∧ header = s.log.lh ∧ Copied A d s.io.view s.log.lh s.log.lh.length
  | .clear => s.log.committing = true ∧ s.log.outstanding = 0 ∧ s.log.lh = [] ∧ Copied A d d header header.length
  | .committed => s.log.committing = true ∧ s.log.outstanding = 0 ∧ s.log.lh = [] ∧ header = []
  | .readHead => s.log.committing = false ∧ s.log.outstanding = 0 ∧ s.refs = [] ∧ s.log.lh = []
  | .recover t => s.log.committing = false ∧ s.log.outstanding = 0 ∧ s.refs = [] ∧ header = s.log.lh ∧ Copied A d d s.log.lh t
  | .erase => s.log.committing = false ∧ s.log.outstanding = 0 ∧ s.refs = [] ∧ s.log.lh = [] ∧ Copied A d d header header.length

/-- The invariant of the machine. -/
structure Inv (A : LogArea) (s : Fs) : Prop where
  good : s.io.Good s.refs
  home : ∀ i ∈ s.refs, A.Home (s.io.bc.buf i).blockno
  lh : HeaderOk A s.log.lh
  header : HeaderOk A (headerOf (s.io.disk ROOTDEV A.start))
  ops : s.log.outstanding = s.inOp.length
  pins : ∀ b, (s.io.pinned b).isSome = true ↔ b ∈ LogAux.pins s
  phase : PhaseOk A s

/-- A block that is not to be written is as it is on the disk. -/
theorem Inv.view_of_not_mem (h : Inv A s) {b : Nat} (hb : b ∉ LogAux.pins s) : s.io.view b = s.io.disk ROOTDEV b := by
  have hnone : s.io.pinned b = none := Option.not_isSome_iff_eq_none.mp fun hsome => hb ((h.pins b).mp hsome)
  rw [h.good.view_eq, hnone, Option.getD_none]

theorem pins_subset (s : Fs) : ∀ b ∈ LogAux.pins s, b ∈ s.log.lh := by
  intro b hb
  unfold LogAux.pins at hb
  split at hb
  · exact hb
  · exact hb
  · exact hb
  · exact List.mem_of_mem_drop hb
  · cases hb

/-- The blocks of the log are as they are on the disk. -/
theorem Inv.view_of_log (h : Inv A s) {b : Nat} (h1 : A.start ≤ b) (h2 : b < A.start + A.size) : s.io.view b = s.io.disk ROOTDEV b := by
  refine h.view_of_not_mem fun hb => ?_
  rcases h.lh.home b (pins_subset s b hb) with hlt | hle <;> omega

/-- Once every block has been written, the log asks for nothing new. -/
theorem recovered_of_copied (hd : HeaderOk A (headerOf (d A.start)))
    (h : Copied A d d (headerOf (d A.start)) (headerOf (d A.start)).length) : recovered A d = d := by
  funext b
  by_cases hb : b ∈ headerOf (d A.start)
  · obtain ⟨i, hi⟩ := List.getElem?_of_mem hb
    rw [recovered_of_getElem? hd hi]
    exact (h i b (List.getElem?_eq_some_iff.mp hi).1 hi).symm
  · exact recovered_of_not_mem hb

/-! ## Steps that use buffers only -/

theorem call_of_wp {α : Type} {x : StoreM α} {Q : α → Store → Prop} {E : FsStop → Prop} {k : α → Fs → Fs}
    (h : Cmd.wp x Q E s.toStore) (hc : s.call x k = some s') : ∃ a t, Q a t ∧ s' = k a { s with toStore := t } := by
  unfold call at hc
  cases hx : x s.toStore with
  | error e =>
    rw [hx] at hc
    cases hc
  | ok r =>
    rw [hx, Option.some.injEq] at hc
    exact ⟨r.1, r.2, Cmd.wp_ok h hx, hc.symm⟩

/-- A step after which the blocks and the log are the same. -/
theorem Inv.same (h : Inv A s) (hst : s.phase.starting = false) (hlog : s'.log = s.log) (hphase : s'.phase = s.phase)
    (hops : s'.inOp = s.inOp) (hsame : Io.Same s.io s'.io) (hgood : s'.io.Good s'.refs)
    (hhome : ∀ i ∈ s'.refs, A.Home (s'.io.bc.buf i).blockno) : Inv A s' ∧ s'.txn A = s.txn A := by
  have hview : s'.io.view = s.io.view := by
    funext b
    rw [hgood.view_eq, h.good.view_eq, hsame.pinned, hsame.disk]
  have hpins : LogAux.pins s' = LogAux.pins s := by
    unfold LogAux.pins
    rw [hphase, hlog]
  refine ⟨⟨hgood, hhome, hlog ▸ h.lh, by rw [hsame.disk]; exact h.header, by rw [hlog, hops]; exact h.ops, ?_, ?_⟩, ?_⟩
  · intro b
    rw [hsame.pinned, hpins]
    exact h.pins b
  · have hph := h.phase
    unfold PhaseOk at hph ⊢
    rw [hphase, hlog, hsame.disk, hview]
    cases hp : s.phase with
    | readHead | recover t | erase => rw [hp] at hst; cases hst
    | up | writeLog t | writeHead | install t | clear | committed => simpa only [hp] using hph
  · refine txn_eq (fun b _ => by rw [hsame.disk]) (fun b _ => ?_) (by rw [hlog])
    unfold Fs.current
    rw [hsame.disk, hphase, hview]

theorem mem_refs {j : Fin NBUF} : j ∈ s.refs ↔ j ∈ s.waiting.map Prod.snd ∨ j ∈ s.leaving.map Prod.snd ∨ (s.io.locks j).isSome = true := by
  unfold refs
  rw [List.mem_append, List.mem_append, or_assoc, List.mem_filter]
  simp

theorem step_bget {b : Nat} (h : Inv A s) (hst : s.phase.starting = false) (hb : A.Home b)
    (hc : s.call (onIo (bgetFind ROOTDEV b)) (fun i s => { s with waiting := (p, i) :: s.waiting }) = some s') :
    Inv A s' ∧ s'.txn A = s.txn A := by
  obtain ⟨i, t, ⟨hlog, hgood, hsame, hbi, hkeep, hlocks⟩, rfl⟩ := call_of_wp (E := fun _ => True)
    (Q := fun i t => t.log = s.log ∧ t.io.Good (i :: s.refs) ∧ Io.Same s.io t.io ∧ (t.io.bc.buf i).blockno = b ∧
      (∀ j ∈ s.refs, (t.io.bc.buf j).blockno = (s.io.bc.buf j).blockno) ∧ t.io.locks = s.io.locks)
    (Store.wp_onIo.mpr (Io.bgetFind_wp h.good (fun _ => trivial) fun i t h1 h2 h3 h4 h5 => ⟨rfl, h1, h2, h3, h4, h5⟩)) hc
  refine h.same hst hlog rfl rfl hsame (good_of_count hgood fun j => ?_) fun j hj => ?_
  · rw [count_refs, List.count_cons, count_refs, List.map_cons, List.count_cons, hlocks]
    dsimp only
    omega
  · have hcases : j = i ∨ j ∈ s.refs := by
      rw [mem_refs, List.map_cons, List.mem_cons, hlocks, or_assoc] at hj
      rw [mem_refs]
      exact hj
    rcases hcases with rfl | hj
    · exact hbi ▸ hb
    · exact (hkeep j hj).symm ▸ h.home j hj

theorem step_breadLock (h : Inv A s) (hst : s.phase.starting = false) (hi : (p, i) ∈ s.waiting)
    (hc : s.call (onIo (breadLock p i)) (fun _ s => { s with waiting := s.waiting.erase (p, i) }) = some s') :
    Inv A s' ∧ s'.txn A = s.txn A := by
  have hmem : i ∈ s.refs := mem_refs.mpr (.inl (List.mem_map_of_mem hi))
  obtain ⟨-, t, ⟨hlog, hgood, hsame, hkeep, hnone, hlocks⟩, rfl⟩ := call_of_wp (E := fun _ => True)
    (Q := fun _ t => t.log = s.log ∧ t.io.Good s.refs ∧ Io.Same s.io t.io ∧
      (∀ j, (t.io.bc.buf j).blockno = (s.io.bc.buf j).blockno) ∧ s.io.locks i = none ∧
      t.io.locks = update s.io.locks i (some p))
    (Store.wp_onIo.mpr (Io.breadLock_wp h.good hmem rfl (fun _ => trivial) (fun _ => trivial)
      fun t h1 h2 h3 _ h4 h5 => ⟨rfl, h1, h2, h3, h4, h5⟩)) hc
  have hcount : ∀ j, ({ s with toStore := t, waiting := s.waiting.erase (p, i) } : Fs).refs.count j = s.refs.count j := by
    intro j
    rw [count_refs, count_refs, count_map_erase hi j, hlocks]
    by_cases hj : j = i
    · subst hj
      simp [hnone]
      omega
    · simp [hj]
  refine h.same hst hlog rfl rfl hsame (good_of_count hgood hcount) fun j hj => ?_
  rw [hkeep j]
  exact h.home j ((List.perm_iff_count.mpr hcount).mem_iff.mp hj)

theorem step_releasesleep (h : Inv A s) (hst : s.phase.starting = false) (hi : holdingsleep p i s.io = true)
    (hc : s.call (onIo (releasesleep i)) (fun _ s => { s with leaving := (p, i) :: s.leaving }) = some s') :
    Inv A s' ∧ s'.txn A = s.txn A := by
  have hlock : s.io.locks i = some p := of_decide_eq_true hi
  obtain ⟨hgood, hsame⟩ := h.good.releasesleep hlock
  have hwp : Cmd.wp (onIo (releasesleep i)) (fun _ t => t = { s.toStore with io := s.io.modify i fun B => { B with lock := none } })
      (fun _ => True) s.toStore := Store.wp_onIo.mpr (by exact rfl)
  obtain ⟨-, t, rfl, rfl⟩ := call_of_wp hwp hc
  have hcount : ∀ j, ({ s with
      io := s.io.modify i fun B => { B with lock := none }, leaving := (p, i) :: s.leaving } : Fs).refs.count j = s.refs.count j := by
    intro j
    rw [count_refs, count_refs, Io.locks_modify, List.map_cons, List.count_cons]
    by_cases hj : j = i
    · subst hj
      simp [hlock]
      omega
    · simp [hj, Ne.symm hj]
  refine h.same hst rfl rfl rfl hsame (good_of_count hgood hcount) fun j hj => ?_
  have hkeep : ((s.io.modify i fun B => { B with lock := none }).bc.buf j).blockno = (s.io.bc.buf j).blockno :=
    Io.blockno_modify (by exact fun _ => rfl) j
  rw [hkeep]
  exact h.home j ((List.perm_iff_count.mpr hcount).mem_iff.mp hj)

theorem step_bput (h : Inv A s) (hst : s.phase.starting = false) (hi : (p, i) ∈ s.leaving)
    (hc : s.call (onIo (bput i)) (fun _ s => { s with leaving := s.leaving.erase (p, i) }) = some s') :
    Inv A s' ∧ s'.txn A = s.txn A := by
  have hmem : i ∈ s.leaving.map Prod.snd := List.mem_map_of_mem hi
  have hown : s.io.locks i ≠ none → i ∈ s.refs.erase i := by
    intro hl
    rw [← List.count_pos_iff, List.count_erase_self, count_refs, if_pos (Option.isSome_iff_ne_none.mpr hl)]
    have := List.count_pos_iff.mpr hmem
    omega
  obtain ⟨-, t, ⟨hlog, hgood, hsame, hkeep, hlocks⟩, rfl⟩ := call_of_wp (E := fun _ => True)
    (Q := fun _ t => t.log = s.log ∧ t.io.Good (s.refs.erase i) ∧ Io.Same s.io t.io ∧
      (∀ j, (t.io.bc.buf j).blockno = (s.io.bc.buf j).blockno) ∧ t.io.locks = s.io.locks)
    (Store.wp_onIo.mpr (Io.bput_wp h.good hown fun t h1 h2 h3 h4 => ⟨rfl, h1, h2, h3, h4⟩)) hc
  have hcount : ∀ j, ({ s with toStore := t, leaving := s.leaving.erase (p, i) } : Fs).refs.count j = (s.refs.erase i).count j := by
    intro j
    by_cases hj : j = i
    · subst hj
      rw [List.count_erase_self, count_refs, count_refs, count_map_erase hi j, hlocks, if_pos rfl]
      dsimp only
      omega
    · rw [List.count_erase_of_ne hj, count_refs, count_refs, count_map_erase hi j, hlocks, if_neg hj]
      rfl
  refine h.same hst hlog rfl rfl hsame (good_of_count hgood hcount) fun j hj => ?_
  rw [hkeep j]
  exact h.home j (List.mem_of_mem_erase ((List.perm_iff_count.mpr hcount).mem_iff.mp hj))

/-! ## Steps of operations -/

/-- While an operation is running there is no commit. -/
theorem Inv.up_of_active (h : Inv A s) (ho : s.log.outstanding ≠ 0) : s.phase = .up := by
  have hph := h.phase
  unfold PhaseOk at hph
  cases hp : s.phase with
  | up => rfl
  | writeLog t | writeHead | install t | clear | committed | readHead | recover t | erase =>
    simp only [hp] at hph; exact absurd hph.2.1 ho

theorem Inv.active_of_mem (h : Inv A s) (hp : p ∈ s.inOp) : s.log.outstanding ≠ 0 := by
  rw [h.ops]
  exact Nat.ne_of_gt (List.length_pos_of_mem hp)

theorem HeaderOk.absorb {l : List Nat} {b : Nat} (h : HeaderOk A l) (hb : A.Home b) (hlt : b < FSSIZE) (hlen : l.length < LOGSIZE)
    (hfits : l.length + 1 < A.size) : HeaderOk A (absorb b l) := by
  rw [absorb_eq]
  by_cases hmem : b ∈ l
  · rw [if_pos hmem]
    exact h
  · rw [if_neg hmem]
    constructor
    · exact List.nodup_append.mpr ⟨h.nodup, List.nodup_singleton b, fun c hc e he hce => hmem (List.mem_singleton.mp he ▸ hce ▸ hc)⟩
    · intro c hc
      rcases List.mem_append.mp hc with hc | hc
      · exact h.home c hc
      · exact List.mem_singleton.mp hc ▸ hb
    · intro c hc
      rcases List.mem_append.mp hc with hc | hc
      · exact h.bound c hc
      · exact List.mem_singleton.mp hc ▸ hlt
    · rw [List.length_append, List.length_singleton]
      exact hlen
    · rw [List.length_append, List.length_singleton]
      exact hfits

/-- A change of the cache that changes no lock leaves the references. -/
theorem count_refs_congr {t : Fs} (hw : t.waiting = s.waiting) (hl : t.leaving = s.leaving) (hk : t.io.locks = s.io.locks)
    (j : Fin NBUF) : t.refs.count j = s.refs.count j := by
  rw [count_refs, count_refs, hw, hl, hk]

theorem step_logWrite {v : Block} (h : Inv A s) (hi : holdingsleep p i s.io = true) (hp : p ∈ s.inOp)
    (hc : s.call (do onIo (onBuf i fun B => { B with data := v }); logWrite A i) (fun _ s => s) = some s') :
    Inv A s' ∧ ∃ hb : A.Home (s.io.bc.buf i).blockno, (s.txn A).step (.write ⟨_, hb⟩ v) = some (s'.txn A) := by
  have hlock : s.io.locks i = some p := of_decide_eq_true hi
  have hact := h.active_of_mem hp
  have hup := h.up_of_active hact
  obtain ⟨hmem, hv⟩ := h.good.of_lock hlock
  generalize hb : (s.io.bc.buf i).blockno = b
  have hhome : A.Home b := hb ▸ h.home i hmem
  have hbound : b < FSSIZE := hb ▸ h.good.ok.bound i hv
  obtain ⟨hgood, hpin⟩ := h.good.overwrite v hlock hb
  obtain ⟨-, t, ⟨hlen, hfits, rfl⟩, rfl⟩ := call_of_wp (E := fun _ => True)
    (Q := fun _ t => s.log.lh.length < LOGSIZE ∧ s.log.lh.length + 1 < A.size ∧ t =
      ⟨s.io.modify i fun B => { B with data := v, dirty := true }, { s.log with lh := absorb b s.log.lh }⟩)
    (Store.logWrite_wp v (fun _ => trivial) (fun _ => trivial) fun h1 h2 => ⟨h1, h2, by rw [hb]⟩) hc
  have hlocks : (s.io.modify i fun B => { B with data := v, dirty := true }).locks = s.io.locks := Io.locks_modify_same fun _ => rfl
  have hcount := count_refs_congr (s := s) (t := { s with
    io := s.io.modify i fun B => { B with data := v, dirty := true }, log := { s.log with lh := absorb b s.log.lh } }) rfl rfl hlocks
  have hph := h.phase
  simp only [PhaseOk, hup] at hph
  have habsorb : ∀ c, c ∈ absorb b s.log.lh ↔ c = b ∨ c ∈ s.log.lh := by
    intro c
    rw [absorb_eq]
    by_cases hmem : b ∈ s.log.lh
    · rw [if_pos hmem]
      exact ⟨.inr, fun hc => hc.elim (fun hcb => hcb ▸ hmem) id⟩
    · rw [if_neg hmem, List.mem_append, List.mem_singleton, or_comm]
  refine ⟨⟨good_of_count hgood hcount, fun j hj => ?_, h.lh.absorb hhome hbound hlen hfits, h.header, h.ops, fun c => ?_, ?_⟩,
    hhome, ?_⟩
  · have hkeep : ((s.io.modify i fun B => { B with data := v, dirty := true }).bc.buf j).blockno = (s.io.bc.buf j).blockno :=
      Io.blockno_modify (by exact fun _ => rfl) j
    rw [hkeep]
    exact h.home j ((List.perm_iff_count.mpr hcount).mem_iff.mp hj)
  · have hpins := h.pins c
    simp only [LogAux.pins, hup] at hpins ⊢
    rw [hpin, habsorb]
    by_cases hcb : c = b
    · rw [hcb, update_self]
      exact iff_of_true rfl (.inl rfl)
    · rw [update_of_ne hcb, hpins]
      exact ⟨.inr, fun hor => hor.resolve_left hcb⟩
  · simp only [PhaseOk, hup]
    exact ⟨hph.1, hph.2.1, fun hzero => absurd hzero hact⟩
  · have hst : s.phase.starting = false := by rw [hup]; rfl
    have hact' : (s.txn A).active ≠ 0 := hact
    refine (Txn.step_write hact').trans (congrArg some (Txn.ext (by simp only [Fs.txn, Io.modify_disk]) (funext fun c => ?_) rfl))
    simp only [Fs.txn, Fs.current, hst, Bool.false_eq_true, ↓reduceIte]
    rw [hgood.view_eq, hpin]
    by_cases hcb : c = ⟨b, hhome⟩
    · subst hcb
      rw [update_self, update_self, Option.getD_some]
    · have hne : c.1 ≠ b := fun hcb' => hcb (Subtype.ext hcb')
      rw [update_of_ne hcb, update_of_ne hne]
      exact h.good.view_eq c.1

theorem step_beginOp (h : Inv A s) (hst : s.phase.starting = false) (hc : s.beginOp p = some s') :
    Inv A s' ∧ (s.txn A).stepOrStay (s.txnAct A (.beginOp p)) = some (s'.txn A) := by
  unfold beginOp at hc
  split at hc
  · cases hc
  split at hc
  · rename_i hfull
    cases hc
    exact ⟨⟨h.good, h.home, h.lh, h.header, h.ops, h.pins, h.phase⟩, by rw [txnAct, if_pos hfull]; rfl⟩
  · rename_i hfull
    cases hc
    have hact : s.txnAct A (.beginOp p) = some .start := if_neg hfull
    simp only [Log.full, Bool.or_eq_true, not_or, Bool.not_eq_true] at hfull
    have hph := h.phase
    unfold PhaseOk at hph
    have hup : s.phase = .up := by
      cases hp : s.phase with
      | up => rfl
      | writeLog t | writeHead | install t | clear | committed =>
        simp only [hp] at hph; exact absurd (hfull.1.symm.trans hph.1) Bool.false_ne_true
      | readHead | recover t | erase => rw [hp] at hst; cases hst
    simp only [hup] at hph
    refine ⟨⟨h.good, h.home, h.lh, h.header, ?_, ?_, ?_⟩, by rw [hact]; simp only [Txn.stepOrStay, Txn.step, Fs.txn, Fs.current]⟩
    · rw [List.length_cons, ← h.ops]
    · have hpins := h.pins
      simp only [LogAux.pins, hup] at hpins ⊢
      exact hpins
    · simp only [PhaseOk, hup]
      exact ⟨hph.1, hph.2.1, fun hzero => absurd hzero (Nat.succ_ne_zero _)⟩

theorem step_endOp (h : Inv A s) (hp : p ∈ s.inOp) (hc : s.endOp p = some s') : Inv A s' ∧ (s.txn A).step .finish = some (s'.txn A) := by
  have hact := h.active_of_mem hp
  have hup := h.up_of_active hact
  have hph := h.phase
  simp only [PhaseOk, hup] at hph
  have hpins := h.pins
  simp only [LogAux.pins, hup] at hpins
  have hlen : (s.inOp.erase p).length = s.log.outstanding - 1 := by rw [List.length_erase_of_mem hp, h.ops]
  unfold endOp at hc
  split at hc
  · cases hc
  split at hc
  · -- The last operation ends, and the commit begins.
    rename_i hone
    cases hc
    have htxn : ∀ ph : LogPhase, ph.starting = false → ∀ l : Log, l.outstanding = 0 → ∀ ops pid,
        (s.txn A).step .finish = some (({ s with log := l, inOp := ops, pid := pid, phase := ph } : Fs).txn A) := by
      intro ph hph' l hl ops pid
      have hst : s.phase.starting = false := by rw [hup]; rfl
      simp only [Txn.step, Fs.txn, Fs.current, hst, hph', hl, hone]
      rfl
    by_cases hempty : s.log.lh = []
    · rw [if_pos hempty]
      refine ⟨⟨h.good, h.home, h.lh, h.header, by rw [hlen, hone], ?_, ?_⟩, htxn .committed rfl _ rfl _ _⟩
      · simp only [LogAux.pins]
        rw [hempty] at hpins
        exact hpins
      · simp only [PhaseOk]
        exact ⟨trivial, trivial, hempty, hph.2.1⟩
    · rw [if_neg hempty]
      refine ⟨⟨h.good, h.home, h.lh, h.header, by rw [hlen, hone], ?_, ?_⟩, htxn (.writeLog 0) rfl _ rfl _ _⟩
      · simp only [LogAux.pins]
        exact hpins
      · simp only [PhaseOk]
        exact ⟨trivial, trivial, hph.2.1, fun i b hi => absurd hi (Nat.not_lt_zero i)⟩
  · rename_i hmany
    cases hc
    refine ⟨⟨h.good, h.home, h.lh, h.header, hlen.symm, ?_, ?_⟩, ?_⟩
    · simp only [LogAux.pins, hup]
      exact hpins
    · simp only [PhaseOk, hup]
      exact ⟨hph.1, hph.2.1, fun hzero => absurd hzero (by omega)⟩
    · have hact' : (s.txn A).active ≠ 0 := hact
      exact (Txn.step_finish hact').trans (congrArg some (Txn.ext (by simp only [Fs.txn]) (by simp only [Fs.txn, Fs.current]) rfl))

/-! ## Steps of a commit -/

/-- A function of `log.c` that comes back. -/
theorem frees_true (io : Io) (vs : List (Fin NBUF)) : Store.Frees (fun _ => True) io vs := ⟨.inl trivial, .inl trivial⟩

section

variable {t : Store} {b : Nat} {v : Block}

/-- After a block of the disk has been written, the references are the same and what the cache says of the others too. -/
theorem Inv.refs_wrote (hw : Store.Wrote s.toStore t s.refs b v) (ph : LogPhase) :
    ({ s with toStore := t, phase := ph } : Fs).refs = s.refs := by
  have hlocks : ({ s with toStore := t, phase := ph } : Fs).io.locks = s.io.locks := hw.locks
  unfold refs
  rw [hlocks]

theorem Inv.view_wrote (h : Inv A s) (hw : Store.Wrote s.toStore t s.refs b v) (c : Nat) :
    t.io.view c = if c = b then v else s.io.view c := by
  rw [hw.good.view_eq, hw.pinned, hw.disk, h.good.view_eq]
  by_cases hc : c = b
  · rw [if_pos hc, hc, update_self, update_self, Option.getD_none]
  · rw [if_neg hc, update_of_ne hc, update_of_ne hc]

/-- The parts of the invariant that a write to the disk leaves. -/
theorem Inv.wrote (h : Inv A s) (hw : Store.Wrote s.toStore t s.refs b v) {ph : LogPhase}
    (hhead : HeaderOk A (headerOf (t.io.disk ROOTDEV A.start))) (hpins : ∀ c, (t.io.pinned c).isSome = true ↔
      c ∈ LogAux.pins ({ s with toStore := t, phase := ph } : Fs)) (hph : PhaseOk A ({ s with toStore := t, phase := ph } : Fs)) :
    Inv A ({ s with toStore := t, phase := ph } : Fs) where
  good := by rw [Inv.refs_wrote hw]; exact hw.good
  home i hi := by
    rw [Inv.refs_wrote hw] at hi
    rw [hw.keeps i hi]
    exact h.home i hi
  lh := by
    have hlog : ({ s with toStore := t, phase := ph } : Fs).log = s.log := hw.log
    rw [hlog]
    exact h.lh
  header := hhead
  ops := by
    have hlog : ({ s with toStore := t, phase := ph } : Fs).log = s.log := hw.log
    rw [hlog]
    exact h.ops
  pins := hpins
  phase := hph

section

variable {k : Unit → Fs → Fs}

/-- `write_head` writes one block of the disk. -/
theorem Inv.of_writeHead (h : Inv A s) (hc : s.call (writeHead A s.pid) k = some s') :
    ∃ t, Store.Wrote s.toStore t s.refs A.start (putHeader s.log.lh (s.io.view A.start)) ∧ s' = k () { s with toStore := t } := by
  obtain ⟨_, t, hw, hs⟩ := call_of_wp (Store.writeHead_wp h.good (frees_true _ _)
    (Q := fun _ t => Store.Wrote s.toStore t s.refs A.start (putHeader s.log.lh (s.io.view A.start))) fun _ hw => hw) hc
  exact ⟨t, hw, hs⟩

/-- So does a turn of `install_trans`, and neither the log nor what is recovered from it changes. -/
theorem Inv.of_installOne (h : Inv A s) (hget : s.log.lh[n]? = some b) (hhead : headerOf (s.io.disk ROOTDEV A.start) = s.log.lh)
    (hc : s.call (installOne A s.pid n) k = some s') :
    ∃ t, Store.Wrote s.toStore t s.refs b (s.io.view (A.start + n + 1)) ∧ s' = k () { s with toStore := t } ∧
      (∀ c, A.start ≤ c → c < A.start + A.size → t.io.disk ROOTDEV c = s.io.disk ROOTDEV c) ∧
      recovered A (t.io.disk ROOTDEV) = recovered A (s.io.disk ROOTDEV) := by
  have hb : b ∈ s.log.lh := List.mem_of_getElem? hget
  have hhome := h.lh.home b hb
  have hroom : n + 1 < A.size := Nat.lt_of_le_of_lt (List.getElem?_eq_some_iff.mp hget).1 h.lh.fits
  obtain ⟨_, t, hw, hs⟩ := call_of_wp (Store.installOne_wp h.good (frees_true _ _) hget (h.lh.bound b hb) hhome hroom
    (Q := fun _ t => Store.Wrote s.toStore t s.refs b (s.io.view (A.start + n + 1))) fun _ hw => hw) hc
  refine ⟨t, hw, hs, fun c h1 h2 => ?_, ?_⟩
  · rw [hw.disk]
    refine update_of_ne ?_ ..
    rintro rfl
    rcases hhome with hlt | hle <;> omega
  · rw [hw.disk]
    exact recovered_update h.header (by rw [hhead]; exact hb)

end

end

theorem step_writeLog (h : Inv A s) (hp : s.phase = .writeLog n) (hc : s.commitStep A = some s') : Inv A s' ∧ s'.txn A = s.txn A := by
  have hph := h.phase
  simp only [PhaseOk, hp] at hph
  obtain ⟨hcom, hout, hhead, hcopy⟩ := hph
  have hpins := h.pins
  simp only [LogAux.pins, hp] at hpins
  simp only [commitStep, hp] at hc
  split at hc
  · rename_i hlt
    have hget := List.getElem?_eq_getElem hlt
    generalize s.log.lh[n] = b at hget
    have hb : b ∈ s.log.lh := List.mem_of_getElem? hget
    have hhome := h.lh.home b hb
    have hroom : n + 1 < A.size := Nat.lt_of_le_of_lt hlt h.lh.fits
    obtain ⟨-, t, hw, rfl⟩ := call_of_wp (Store.writeLogOne_wp h.good (frees_true _ _) hget (h.lh.bound b hb) hhome hroom
      (Q := fun _ t => Store.Wrote s.toStore t s.refs (A.start + n + 1) (s.io.view b)) fun _ hw => hw) hc
    have hlog : t.log = s.log := hw.log
    have hview : ∀ c, A.Home c → t.io.view c = s.io.view c := by
      intro c hhome
      rw [h.view_wrote hw, if_neg]
      rintro rfl
      rcases hhome with hlt | hle <;> omega
    have hstart : t.io.disk ROOTDEV A.start = s.io.disk ROOTDEV A.start := by
      rw [hw.disk]
      exact update_of_ne (by omega) ..
    refine ⟨h.wrote hw (by rw [hstart]; exact h.header) (fun c => ?_) ?_, ?_⟩
    · simp only [LogAux.pins]
      rw [hw.pinned, hlog]
      by_cases hcl : c = A.start + n + 1
      · rw [hcl, update_self]
        refine iff_of_false (by simp) fun hmem => ?_
        rcases h.lh.home _ hmem with hlt | hle <;> omega
      · rw [update_of_ne hcl]
        exact hpins c
    · simp only [PhaseOk]
      rw [hlog, hstart]
      refine ⟨hcom, hout, hhead, fun i c hi hic => ?_⟩
      have hcmem : c ∈ s.log.lh := List.mem_of_getElem? hic
      rw [hview c (h.lh.home c hcmem), hw.disk]
      by_cases hin : i = n
      · subst hin
        rw [hget, Option.some.injEq] at hic
        rw [update_self, hic]
      · rw [update_of_ne (by omega)]
        exact hcopy i c (by omega) hic
    · have hrec : recovered A (t.io.disk ROOTDEV) = t.io.disk ROOTDEV := recovered_of_empty (hstart.symm ▸ hhead)
      refine txn_eq (fun c hhome => ?_) (fun c hhome => ?_) (by rw [hlog])
      · rw [recovered_of_empty hhead, hrec, hw.disk]
        refine update_of_ne ?_ ..
        rintro hcl
        rcases hhome with hlt | hle <;> omega
      · rw [current_of_up rfl, current_of_up (by rw [hp]; rfl)]
        exact hview c hhome
  · rename_i hge
    cases hc
    refine ⟨⟨h.good, h.home, h.lh, h.header, h.ops, hpins, ?_⟩, ?_⟩
    · simp only [PhaseOk]
      exact ⟨hcom, hout, hhead, fun i b hi hib => hcopy i b (by omega) hib⟩
    · exact txn_eq (fun _ _ => rfl) (fun c _ => by rw [current_of_up rfl, current_of_up (by rw [hp]; rfl)]) rfl

/-- The header written: what was in the cache is stable. -/
theorem step_writeHead (h : Inv A s) (hp : s.phase = .writeHead) (hc : s.commitStep A = some s') :
    Inv A s' ∧ (s.txn A).step .commit = some (s'.txn A) := by
  have hph := h.phase
  simp only [PhaseOk, hp] at hph
  obtain ⟨hcom, hout, hhead, hcopy⟩ := hph
  have hpins := h.pins
  simp only [LogAux.pins, hp] at hpins
  simp only [commitStep, hp] at hc
  obtain ⟨t, hw, rfl⟩ := h.of_writeHead hc
  have hlog : t.log = s.log := hw.log
  have hhome : ∀ b, A.Home b → b ≠ A.start := by
    have hpos := A.pos
    rintro b (hlt | hle) rfl <;> omega
  have hstart : headerOf (t.io.disk ROOTDEV A.start) = s.log.lh := by
    rw [hw.disk, update_self]
    exact headerOf_putHeader _ h.lh.length h.lh.bound
  have hview : ∀ b, A.Home b → t.io.view b = s.io.view b := fun b hb => by rw [h.view_wrote hw, if_neg (hhome b hb)]
  have hcopy' : Copied A (t.io.disk ROOTDEV) t.io.view s.log.lh s.log.lh.length := by
    intro i b hi hib
    rw [hview b (h.lh.home b (List.mem_of_getElem? hib)), hw.disk, update_of_ne (by omega)]
    exact hcopy i b hi hib
  refine ⟨h.wrote hw (by rw [hstart]; exact h.lh) (fun c => ?_) ?_, ?_⟩
  · simp only [LogAux.pins]
    rw [hw.pinned, hlog, List.drop_zero]
    by_cases hcs : c = A.start
    · rw [hcs, update_self]
      exact iff_of_false (by simp) fun hmem => hhome _ (h.lh.home _ hmem) rfl
    · rw [update_of_ne hcs]
      exact hpins c
  · simp only [PhaseOk]
    rw [hlog]
    exact ⟨hcom, hout, hstart, hcopy'⟩
  · have hact : (s.txn A).active = 0 := hout
    have hst : s.phase.starting = false := by rw [hp]; rfl
    refine (Txn.step_commit hact).trans (congrArg some (Txn.ext (funext fun b => ?_) (funext fun b => ?_) ?_))
    · simp only [Fs.txn]
      rw [current_of_up hst]
      by_cases hb : b.1 ∈ s.log.lh
      · obtain ⟨i, hi⟩ := List.getElem?_of_mem hb
        rw [recovered_of_getElem? (by rw [hstart]; exact h.lh) (hstart.symm ▸ hi), ← hview b.1 b.2]
        exact hcopy' i b.1 (List.getElem?_eq_some_iff.mp hi).1 hi
      · rw [recovered_of_not_mem (by rw [hstart]; exact hb), hw.disk, update_of_ne (hhome b.1 b.2)]
        exact h.view_of_not_mem fun hmem => hb (pins_subset s b.1 hmem)
    · simp only [Fs.txn]
      rw [current_of_up hst, current_of_up rfl]
      exact (hview b.1 b.2).symm
    · simp only [Fs.txn]
      rw [hlog]

theorem step_install (h : Inv A s) (hp : s.phase = .install n) (hc : s.commitStep A = some s') : Inv A s' ∧ s'.txn A = s.txn A := by
  have hph := h.phase
  simp only [PhaseOk, hp] at hph
  obtain ⟨hcom, hout, hhead, hcopy⟩ := hph
  have hpins := h.pins
  simp only [LogAux.pins, hp] at hpins
  have hst : s.phase.starting = false := by rw [hp]; rfl
  simp only [commitStep, hp] at hc
  split at hc
  · rename_i hlt
    have hget := List.getElem?_eq_getElem hlt
    have hdrop := List.drop_eq_getElem_cons hlt
    generalize s.log.lh[n] = b at hget hdrop
    have hroom : n + 1 < A.size := Nat.lt_of_le_of_lt hlt h.lh.fits
    obtain ⟨t, hw, rfl, hlogblock, hrec⟩ := h.of_installOne hget hhead hc
    have hlog : t.log = s.log := hw.log
    have hstart := hlogblock A.start (Nat.le_refl _) (by have := A.pos; omega)
    -- The copy in the log is what a reader gets already.
    have hview : t.io.view = s.io.view := by
      funext c
      rw [h.view_wrote hw]
      by_cases hcb : c = b
      · rw [if_pos hcb, hcb, hcopy n b hlt hget, h.view_of_log (by omega) (by omega)]
      · rw [if_neg hcb]
    refine ⟨h.wrote hw (by rw [hstart]; exact h.header) (fun c => ?_) ?_, ?_⟩
    · simp only [LogAux.pins]
      rw [hw.pinned, hlog]
      have hnot : b ∉ s.log.lh.drop (n + 1) := by
        have hnd : (s.log.lh.drop n).Nodup := h.lh.nodup.sublist (List.drop_sublist n _)
        rw [hdrop] at hnd
        exact (List.nodup_cons.mp hnd).1
      by_cases hcb : c = b
      · rw [hcb, update_self]
        exact iff_of_false (by simp) hnot
      · rw [update_of_ne hcb]
        refine (hpins c).trans ?_
        rw [hdrop, List.mem_cons]
        exact ⟨fun hor => hor.resolve_left hcb, .inr⟩
    · simp only [PhaseOk]
      rw [hlog, hstart, hview]
      refine ⟨hcom, hout, hhead, fun i c hi hic => ?_⟩
      have hfits := h.lh.fits
      rw [hlogblock _ (by omega) (by omega)]
      exact hcopy i c hi hic
    · exact txn_eq (fun c _ => by rw [hrec]) (fun c _ => by rw [current_of_up rfl, current_of_up hst, hview]) (by rw [hlog])
  · rename_i hge
    cases hc
    have hempty : s.log.lh.drop n = [] := List.drop_eq_nil_of_le (by omega)
    rw [hempty] at hpins
    have hview : ∀ b, s.io.view b = s.io.disk ROOTDEV b := by
      refine fun b => h.view_of_not_mem ?_
      simp only [LogAux.pins, hp, hempty]
      exact List.not_mem_nil
    refine ⟨⟨h.good, h.home, HeaderOk.nil, h.header, h.ops, hpins, ?_⟩, ?_⟩
    · simp only [PhaseOk]
      refine ⟨hcom, hout, trivial, fun i b hi hib => ?_⟩
      rw [hhead] at hi hib
      rw [← hview b]
      exact hcopy i b hi hib
    · exact txn_eq (fun _ _ => rfl) (fun c _ => by rw [current_of_up rfl, current_of_up hst]) rfl

/-- The header cleared, once every block has been written. -/
theorem erased (h : Inv A s) (hcopy : Copied A (s.io.disk ROOTDEV) (s.io.disk ROOTDEV) (headerOf (s.io.disk ROOTDEV A.start))
      (headerOf (s.io.disk ROOTDEV A.start)).length) (hempty : s.log.lh = []) {t : Store}
    (hw : Store.Wrote s.toStore t s.refs A.start (putHeader s.log.lh (s.io.view A.start))) :
    headerOf (t.io.disk ROOTDEV A.start) = [] ∧
      (∀ b, A.Home b → recovered A (t.io.disk ROOTDEV) b = recovered A (s.io.disk ROOTDEV) b) ∧
      (∀ b, A.Home b → t.io.view b = s.io.view b) ∧ (∀ b, A.Home b → t.io.disk ROOTDEV b = recovered A (s.io.disk ROOTDEV) b) := by
  have hhome : ∀ b, A.Home b → b ≠ A.start := by
    have hpos := A.pos
    rintro b (hlt | hle) rfl <;> omega
  have hhead : headerOf (t.io.disk ROOTDEV A.start) = [] := by
    rw [hw.disk, update_self, hempty]
    exact headerOf_putHeader _ (Nat.zero_le _) fun n hn => absurd hn List.not_mem_nil
  have hdisk : ∀ b, A.Home b → t.io.disk ROOTDEV b = recovered A (s.io.disk ROOTDEV) b := by
    intro b hb
    rw [recovered_of_copied h.header hcopy, hw.disk]
    exact update_of_ne (hhome b hb) ..
  refine ⟨hhead, fun b hb => ?_, fun b hb => ?_, hdisk⟩
  · rw [recovered_of_empty hhead]
    exact hdisk b hb
  · rw [h.view_wrote hw, if_neg (hhome b hb)]

/-- Where nothing is dirty, nothing is dirty after a write. -/
theorem unpinned_wrote {t : Store} {b : Nat} {v : Block} (h : ∀ c, (s.io.pinned c).isSome = true ↔ c ∈ ([] : List Nat))
    (hw : Store.Wrote s.toStore t s.refs b v) (c : Nat) : (t.io.pinned c).isSome = true ↔ c ∈ ([] : List Nat) := by
  rw [hw.pinned]
  by_cases hc : c = b
  · rw [hc, update_self]
    exact iff_of_false (by simp) List.not_mem_nil
  · rw [update_of_ne hc]
    exact h c

theorem step_clear (h : Inv A s) (hp : s.phase = .clear) (hc : s.commitStep A = some s') : Inv A s' ∧ s'.txn A = s.txn A := by
  have hph := h.phase
  simp only [PhaseOk, hp] at hph
  obtain ⟨hcom, hout, hempty, hcopy⟩ := hph
  have hpins := h.pins
  simp only [LogAux.pins, hp] at hpins
  simp only [commitStep, hp] at hc
  obtain ⟨t, hw, rfl⟩ := h.of_writeHead hc
  have hlog : t.log = s.log := hw.log
  obtain ⟨hhead, hrec, hview, -⟩ := erased h hcopy hempty hw
  refine ⟨h.wrote hw (by rw [hhead]; exact HeaderOk.nil) (fun c => ?_) ?_, ?_⟩
  · simp only [LogAux.pins]
    exact unpinned_wrote hpins hw c
  · simp only [PhaseOk]
    rw [hlog]
    exact ⟨hcom, hout, hempty, hhead⟩
  · exact txn_eq hrec (fun b hb => by rw [current_of_up rfl, current_of_up (by rw [hp]; rfl), hview b hb]) (by rw [hlog])

theorem step_committed (h : Inv A s) (hp : s.phase = .committed) (hc : s.commitStep A = some s') :
    Inv A s' ∧ s'.txn A = s.txn A := by
  have hph := h.phase
  simp only [PhaseOk, hp] at hph
  obtain ⟨-, hout, hempty, hhead⟩ := hph
  have hpins := h.pins
  simp only [LogAux.pins, hp] at hpins
  simp only [commitStep, hp] at hc
  cases hc
  refine ⟨⟨h.good, h.home, h.lh, h.header, h.ops, ?_, ?_⟩, ?_⟩
  · simp only [LogAux.pins]
    rw [hempty]
    exact hpins
  · simp only [PhaseOk]
    exact ⟨trivial, hhead, fun _ => hempty⟩
  · exact txn_eq (fun _ _ => rfl) (fun c _ => by rw [current_of_up rfl, current_of_up (by rw [hp]; rfl)]) rfl

/-! ## Steps of a recovery -/

theorem step_readHead (h : Inv A s) (hp : s.phase = .readHead) (hc : s.recoverStep A = some s') :
    Inv A s' ∧ s'.txn A = s.txn A := by
  have hph := h.phase
  simp only [PhaseOk, hp] at hph
  obtain ⟨hcom, hout, hrefs, -⟩ := hph
  have hpins := h.pins
  simp only [LogAux.pins, hp] at hpins
  simp only [recoverStep, hp] at hc
  obtain ⟨-, t, ⟨hgood, hsame, hkeep, hlocks, hlog⟩, rfl⟩ := call_of_wp (Store.readHead_wp h.good (frees_true _ _)
    (Q := fun _ t => t.io.Good s.refs ∧ Io.Same s.io t.io ∧ (∀ k ∈ s.refs, (t.io.bc.buf k).blockno = (s.io.bc.buf k).blockno) ∧
      t.io.locks = s.io.locks ∧ t.log = { s.log with lh := headerOf (s.io.view A.start) })
    fun _ h1 h2 h3 h4 h5 => ⟨h1, h2, h3, h4, h5⟩) hc
  have hhead : headerOf (s.io.view A.start) = headerOf (s.io.disk ROOTDEV A.start) := by
    rw [h.view_of_log (Nat.le_refl _) (by have := A.pos; omega)]
  have hrefs' : ({ s with toStore := t, phase := .recover 0 } : Fs).refs = s.refs := by
    unfold refs
    rw [hlocks]
  refine ⟨⟨by rw [hrefs']; exact hgood, fun i hi => ?_, ?_, by rw [hsame.disk]; exact h.header, by rw [hlog]; exact h.ops, ?_, ?_⟩, ?_⟩
  · rw [hrefs', hrefs] at hi
    exact absurd hi List.not_mem_nil
  · rw [hlog]
    dsimp only
    rw [hhead]
    exact h.header
  · simp only [LogAux.pins]
    rw [hsame.pinned]
    exact hpins
  · simp only [PhaseOk]
    rw [hrefs', hlog, hsame.disk]
    dsimp only
    exact ⟨hcom, hout, hrefs, hhead.symm, fun i b hi => absurd hi (Nat.not_lt_zero i)⟩
  · refine txn_eq (fun b _ => by rw [hsame.disk]) (fun b _ => ?_) (by rw [hlog])
    rw [current_of_starting rfl, current_of_starting (by rw [hp]; rfl), hsame.disk]

theorem step_recover (h : Inv A s) (hp : s.phase = .recover n) (hc : s.recoverStep A = some s') : Inv A s' ∧ s'.txn A = s.txn A := by
  have hph := h.phase
  simp only [PhaseOk, hp] at hph
  obtain ⟨hcom, hout, hrefs, hhead, hcopy⟩ := hph
  have hpins := h.pins
  simp only [LogAux.pins, hp] at hpins
  have hst : s.phase.starting = true := by rw [hp]; rfl
  simp only [recoverStep, hp] at hc
  split at hc
  · rename_i hlt
    have hget := List.getElem?_eq_getElem hlt
    generalize s.log.lh[n] = b at hget
    have hroom : n + 1 < A.size := Nat.lt_of_le_of_lt hlt h.lh.fits
    obtain ⟨t, hw, rfl, hlogblock, hrec⟩ := h.of_installOne hget hhead hc
    have hlog : t.log = s.log := hw.log
    have hstart := hlogblock A.start (Nat.le_refl _) (by have := A.pos; omega)
    refine ⟨h.wrote hw (by rw [hstart]; exact h.header) (fun c => ?_) ?_, ?_⟩
    · simp only [LogAux.pins]
      exact unpinned_wrote hpins hw c
    · simp only [PhaseOk]
      rw [Inv.refs_wrote hw, hlog, hstart]
      refine ⟨hcom, hout, hrefs, hhead, fun i c hi hic => ?_⟩
      have hlti := (List.getElem?_eq_some_iff.mp hic).1
      have hfits := h.lh.fits
      rw [hlogblock (A.start + i + 1) (by omega) (by omega), hw.disk]
      by_cases hcb : c = b
      · -- No block is in the header twice.
        have hin : i = n := by
          refine (List.getElem?_inj hlti h.lh.nodup).mp ?_
          rw [hic, hget, hcb]
        rw [hcb, update_self, hin, h.view_of_log (by omega) (by omega)]
      · rw [update_of_ne hcb]
        refine hcopy i c ?_ hic
        have hne : i ≠ n := by
          rintro rfl
          rw [hget, Option.some.injEq] at hic
          exact hcb hic.symm
        omega
    · exact txn_eq (fun c _ => by rw [hrec]) (fun c _ => by rw [current_of_starting rfl, current_of_starting hst, hrec]) (by rw [hlog])
  · rename_i hge
    cases hc
    refine ⟨⟨h.good, h.home, HeaderOk.nil, h.header, h.ops, hpins, ?_⟩, ?_⟩
    · simp only [PhaseOk]
      refine ⟨hcom, hout, hrefs, trivial, fun i b hi hib => ?_⟩
      rw [hhead] at hi hib
      exact hcopy i b (by omega) hib
    · exact txn_eq (fun _ _ => rfl) (fun c _ => by rw [current_of_starting rfl, current_of_starting hst]) rfl

theorem step_erase (h : Inv A s) (hp : s.phase = .erase) (hc : s.recoverStep A = some s') : Inv A s' ∧ s'.txn A = s.txn A := by
  have hph := h.phase
  simp only [PhaseOk, hp] at hph
  obtain ⟨hcom, hout, hrefs, hempty, hcopy⟩ := hph
  have hpins := h.pins
  simp only [LogAux.pins, hp] at hpins
  simp only [recoverStep, hp] at hc
  obtain ⟨t, hw, rfl⟩ := h.of_writeHead hc
  have hlog : t.log = s.log := hw.log
  obtain ⟨hhead, hrec, -, hdisk⟩ := erased h hcopy hempty hw
  have hinv : Inv A ({ s with toStore := t, phase := .up } : Fs) := by
    refine h.wrote hw (by rw [hhead]; exact HeaderOk.nil) (fun c => ?_) ?_
    · simp only [LogAux.pins]
      rw [hlog, hempty]
      exact unpinned_wrote hpins hw c
    · simp only [PhaseOk]
      rw [hlog]
      exact ⟨hcom, hhead, fun _ => hempty⟩
  refine ⟨hinv, txn_eq hrec (fun b hb => ?_) (by rw [hlog])⟩
  rw [current_of_up rfl, current_of_starting (by rw [hp]; rfl), ← hdisk b hb]
  refine hinv.view_of_not_mem ?_
  simp only [LogAux.pins]
  rw [hlog, hempty]
  exact List.not_mem_nil

/-- The machine started on a disk whose log is in order. -/
theorem boot_inv {disk : Nat → Nat → Block} (h : HeaderOk A (headerOf (disk ROOTDEV A.start))) : Inv A (boot disk) := by
  obtain ⟨hgood, hpinned⟩ := Io.good_binit disk
  have hio : (boot disk).io = ⟨disk, binit⟩ := rfl
  have hrefs : (boot disk).refs = [] := by
    unfold refs
    rw [hio, Io.locks_binit]
    exact List.append_eq_nil_iff.mpr ⟨rfl, List.filter_eq_nil_iff.mpr fun i _ => Bool.false_ne_true⟩
  refine ⟨by rw [hrefs, hio]; exact hgood, fun i hi => ?_, HeaderOk.nil, h, rfl, fun b => ?_, rfl, rfl, hrefs, rfl⟩
  · rw [hrefs] at hi
    exact absurd hi List.not_mem_nil
  · rw [hio, hpinned]
    exact iff_of_false Bool.false_ne_true List.not_mem_nil

/-! ## Whole runs -/

/-- After a crash the contents are the stable ones. -/
theorem txn_boot (disk : Nat → Nat → Block) :
    (boot disk).txn A = ⟨fun b => recovered A (disk ROOTDEV) b.1, fun b => recovered A (disk ROOTDEV) b.1, 0⟩ := by
  have hc : ∀ b, (boot disk).current A b = recovered A (disk ROOTDEV) b := current_of_starting rfl
  simp only [Fs.txn, hc]
  rfl

theorem recoverStep_inv (h : Inv A s) (hs : s.recoverStep A = some s') : Inv A s' ∧ s'.txn A = s.txn A := by
  cases hp : s.phase with
  | readHead => exact step_readHead h hp hs
  | recover n => exact step_recover h hp hs
  | erase => exact step_erase h hp hs
  | up | writeLog n | writeHead | install n | clear | committed => simp only [recoverStep, hp] at hs; cases hs

theorem commitStep_inv (h : Inv A s) (hs : s.commitStep A = some s') :
    Inv A s' ∧ (s.txn A).stepOrStay (s.txnAct A .commit) = some (s'.txn A) := by
  have hstay : s.phase ≠ .writeHead → Inv A s' ∧ s'.txn A = s.txn A →
      Inv A s' ∧ (s.txn A).stepOrStay (s.txnAct A .commit) = some (s'.txn A) := by
    rintro hne ⟨hinv, htxn⟩
    rw [txnAct, if_neg hne, htxn]
    exact ⟨hinv, rfl⟩
  cases hp : s.phase with
  | writeHead =>
    rw [txnAct, if_pos hp]
    exact step_writeHead h hp hs
  | writeLog n => exact hstay (by rw [hp]; exact LogPhase.noConfusion) (step_writeLog h hp hs)
  | install n => exact hstay (by rw [hp]; exact LogPhase.noConfusion) (step_install h hp hs)
  | clear => exact hstay (by rw [hp]; exact LogPhase.noConfusion) (step_clear h hp hs)
  | committed => exact hstay (by rw [hp]; exact LogPhase.noConfusion) (step_committed h hp hs)
  | up | readHead | recover n | erase => simp only [commitStep, hp] at hs; cases hs

/-- A step keeps the invariant, and is the step of the disk with transactions that `txnAct` names. -/
theorem step_inv {a : FsAct} (h : Inv A s) (hok : Kept A s a) (hs : Fs.step A s a = some s') :
    Inv A s' ∧ (s.txn A).stepOrStay (s.txnAct A a) = some (s'.txn A) := by
  have hstay : s'.txn A = s.txn A → (s.txn A).stepOrStay none = some (s'.txn A) := fun heq => by rw [heq]; rfl
  cases a with
  | crash =>
    cases hs
    refine ⟨boot_inv h.header, ?_⟩
    rw [txn_boot]
    simp only [txnAct, Txn.stepOrStay, Txn.step, Fs.txn]
  | recover => exact (recoverStep_inv h hs).imp_right hstay
  | commit =>
    simp only [Fs.step, Option.ite_none_left_eq_some] at hs
    exact commitStep_inv h hs.2
  | beginOp p =>
    simp only [Fs.step, Option.ite_none_left_eq_some, Bool.not_eq_true] at hs
    exact step_beginOp h hs.1 hs.2
  | endOp p =>
    simp only [Fs.step, Option.ite_none_left_eq_some] at hs
    exact step_endOp h hok hs.2
  | bget p b =>
    simp only [Fs.step, Option.ite_none_left_eq_some, Bool.not_eq_true] at hs
    exact (step_bget h hs.1 hok hs.2).imp_right hstay
  | breadLock p i =>
    simp only [Fs.step, Option.ite_none_left_eq_some, Option.ite_none_right_eq_some, Bool.not_eq_true] at hs
    exact (step_breadLock h hs.1 hs.2.1 hs.2.2).imp_right hstay
  | logWrite p i v =>
    simp only [Fs.step, Option.ite_none_left_eq_some, Option.ite_none_right_eq_some] at hs
    obtain ⟨hinv, hb, hwrite⟩ := step_logWrite h hs.2.1 hok hs.2.2
    rw [txnAct, dif_pos hb]
    exact ⟨hinv, hwrite⟩
  | releasesleep p i =>
    simp only [Fs.step, Option.ite_none_left_eq_some, Option.ite_none_right_eq_some, Bool.not_eq_true] at hs
    exact (step_releasesleep h hs.1 hs.2.1 hs.2.2).imp_right hstay
  | bput p i =>
    simp only [Fs.step, Option.ite_none_left_eq_some, Option.ite_none_right_eq_some, Bool.not_eq_true] at hs
    exact (step_bput h hs.1 hs.2.1 hs.2.2).imp_right hstay

theorem inv_of_reach (h : (Fs.sys A).Reach (Kept A) s) : Inv A s := by
  refine Sys.Reach.invariant (I := Inv A) ?_ (fun s a s' hi hok hs => (step_inv hi hok hs).1) h
  rintro s ⟨disk, hempty, rfl⟩
  exact boot_inv (by rw [hempty]; exact HeaderOk.nil)

/-! ## What was last written -/

/-- Nobody has a buffer before `initlog` has come back. -/
theorem Inv.started (h : Inv A s) (hi : i ∈ s.refs) : s.phase.starting = false := by
  have hph := h.phase
  have hne : s.refs ≠ [] := List.ne_nil_of_mem hi
  cases hp : s.phase with
  | readHead | recover n | erase => simp only [PhaseOk, hp] at hph; exact absurd hph.2.2.1 hne
  | up | writeLog n | writeHead | install n | clear | committed => rfl

theorem lastWritten_step {a : FsAct} {f : Nat → Block} (h : Inv A s) (hf : ∀ b, A.Home b → f b = s.current A b) (hok : Kept A s a)
    (hs : Fs.step A s a = some s') (b : Nat) (hb : A.Home b) : lastWritten A s f a b = s'.current A b := by
  have htxn := (step_inv h hok hs).2
  have hstay : (∀ i v, s.txnAct A a ≠ some (.write i v)) → s.txnAct A a ≠ some .crash → f b = s'.current A b := fun hw hc =>
    (hf b hb).trans (congrFun (Txn.current_of_step htxn hw hc) ⟨b, hb⟩).symm
  cases a with
  | crash =>
    cases hs
    exact (current_of_starting (s := boot s.io.disk) rfl b).symm
  | logWrite p i v =>
    simp only [Fs.step, Option.ite_none_left_eq_some, Option.ite_none_right_eq_some] at hs
    obtain ⟨-, hb', hstep⟩ := step_logWrite h hs.2.1 hok hs.2.2
    have hcur := congrFun (Txn.current_of_write hstep) ⟨b, hb⟩
    rw [lastWritten]
    refine Eq.trans ?_ hcur.symm
    by_cases hbi : b = (s.io.bc.buf i).blockno
    · subst hbi
      rw [update_self, update_self]
    · have hne : (⟨b, hb⟩ : { b // A.Home b }) ≠ ⟨(s.io.bc.buf i).blockno, hb'⟩ := fun heq => hbi (congrArg Subtype.val heq)
      rw [update_of_ne hbi, update_of_ne hne]
      exact hf b hb
  | beginOp p | commit => exact hstay (fun i v => by simp only [txnAct]; split <;> simp) (by simp only [txnAct]; split <;> simp)
  | endOp p | bget p c | breadLock p i | releasesleep p i | bput p i | recover =>
    exact hstay (fun i v => by simp [txnAct]) (by simp [txnAct])

/-- What was last written is what is current. -/
theorem last_of_noted {x : Fs × (Nat → Block)} (h : (noted A).Reach (fun x => Kept A x.1) x) :
    ∀ b, A.Home b → x.2 b = x.1.current A b := by
  induction h with
  | init hi =>
    obtain ⟨⟨disk, hempty, hx⟩, hf⟩ := hi
    intro b _
    rw [hf, hx, current_of_starting rfl]
    exact (congrFun (recovered_of_empty hempty) b).symm
  | step a hr hok hst ih =>
    obtain ⟨s', hs, rfl⟩ := Option.map_eq_some_iff.mp hst
    exact lastWritten_step (inv_of_reach (Sys.Reach.of_noting (fun _ _ hok => hok) hr)) ih hok hs

/-! ## A recovery comes to its end -/

/-- How many steps of a recovery are left. -/
def recoveryLeft (A : LogArea) (s : Fs) : Nat :=
  match s.phase with
  | .readHead => (headerOf (s.io.disk ROOTDEV A.start)).length + 3
  | .recover t => s.log.lh.length - t + 2
  | .erase => 1
  | _ => 0

theorem call_total {α : Type} {x : StoreM α} {Q : α → Store → Prop} (k : α → Fs → Fs)
    (h : Cmd.wp x Q (fun _ => False) s.toStore) : ∃ a t, Q a t ∧ s.call x k = some (k a { s with toStore := t }) := by
  unfold call
  cases hx : x s.toStore with
  | error e => exact (Cmd.wp_error h hx).elim
  | ok r => exact ⟨r.1, r.2, Cmd.wp_ok h hx, rfl⟩

/-- Nobody else uses the buffers during a recovery. -/
theorem Inv.frees (h : Inv A s) (hrefs : s.refs = []) (hpins : LogAux.pins s = []) : Store.Frees (fun _ => False) s.io s.refs := by
  refine ⟨.inr ⟨?_, fun b => ?_⟩, .inr fun i => ?_⟩
  · rw [hrefs]
    decide
  · refine Option.not_isSome_iff_eq_none.mp fun hsome => ?_
    have hmem := (h.pins b).mp hsome
    rw [hpins] at hmem
    exact absurd hmem List.not_mem_nil
  · refine Option.not_isSome_iff_eq_none.mp fun hsome => ?_
    have hmem : i ∈ s.refs := mem_refs.mpr (.inr (.inr hsome))
    rw [hrefs] at hmem
    exact absurd hmem List.not_mem_nil

/-- The next step of a recovery can always be taken: there are buffers for it, and no check of `log.c`, `bio.c` or `ide.c` fails. -/
theorem recoverStep_total (h : Inv A s) (hst : s.phase.starting = true) :
    ∃ s', s.recoverStep A = some s' ∧ recoveryLeft A s = recoveryLeft A s' + 1 ∧ (s'.phase.starting = true ∨ s'.phase = .up) := by
  have hph := h.phase
  cases hp : s.phase with
  | readHead =>
    simp only [PhaseOk, hp] at hph
    obtain ⟨-, -, hrefs, -⟩ := hph
    have hfrees := h.frees hrefs (by simp only [LogAux.pins, hp])
    obtain ⟨-, t, hlog, hc⟩ := call_total (fun _ s => { s with phase := .recover 0 }) (Store.readHead_wp (p := s.pid) (A := A) h.good hfrees
      (Q := fun _ t => t.log = { s.log with lh := headerOf (s.io.view A.start) }) fun _ _ _ _ _ hlog => hlog)
    refine ⟨_, by simp only [recoverStep, hp]; exact hc, ?_, .inl rfl⟩
    simp only [recoveryLeft, hp, hlog]
    rw [h.view_of_log (Nat.le_refl _) (by have := A.pos; omega)]
    omega
  | recover n =>
    simp only [PhaseOk, hp] at hph
    obtain ⟨-, -, hrefs, -⟩ := hph
    have hfrees := h.frees hrefs (by simp only [LogAux.pins, hp])
    by_cases hlt : n < s.log.lh.length
    · have hb : s.log.lh[n] ∈ s.log.lh := List.getElem_mem hlt
      obtain ⟨-, t, hw, hc⟩ := call_total (fun _ s => { s with phase := .recover (n + 1) }) (Store.installOne_wp (p := s.pid) h.good hfrees
        (List.getElem?_eq_getElem hlt) (h.lh.bound _ hb) (h.lh.home _ hb) (Nat.lt_of_le_of_lt hlt h.lh.fits)
        (Q := fun _ t => t.log = s.log) fun _ hw => hw.log)
      refine ⟨_, by simp only [recoverStep, hp, if_pos hlt]; exact hc, ?_, .inl rfl⟩
      simp only [recoveryLeft, hp, hw]
      omega
    · refine ⟨{ s with log := { s.log with lh := [] }, phase := .erase }, by simp only [recoverStep, hp, if_neg hlt], ?_, .inl rfl⟩
      simp only [recoveryLeft, hp]
      omega
  | erase =>
    simp only [PhaseOk, hp] at hph
    obtain ⟨-, -, hrefs, -⟩ := hph
    have hfrees := h.frees hrefs (by simp only [LogAux.pins, hp])
    obtain ⟨-, t, -, hc⟩ := call_total (fun _ s => { s with phase := .up }) (Store.writeHead_wp (p := s.pid) (A := A) h.good hfrees
      (Q := fun _ _ => True) fun _ _ => trivial)
    refine ⟨_, by simp only [recoverStep, hp]; exact hc, ?_, .inr rfl⟩
    simp only [recoveryLeft, hp]
  | up | writeLog n | writeHead | install n | clear | committed => rw [hp] at hst; cases hst

/-- So a recovery comes to its end, and what is stable is then what is read. -/
theorem recovery_run (h : Inv A s) (hst : s.phase.starting = true) (hn : recoveryLeft A s = n) :
    ∃ s', (Fs.sys A).run s (List.replicate n .recover) = some s' ∧ s'.phase = .up ∧ Inv A s' ∧ s'.txn A = s.txn A := by
  induction n generalizing s with
  | zero =>
    obtain ⟨s', -, hleft, -⟩ := recoverStep_total h hst
    omega
  | succ n ih =>
    obtain ⟨s', hs, hleft, hphase⟩ := recoverStep_total h hst
    obtain ⟨hinv, htxn⟩ := recoverStep_inv h hs
    have hrun : (Fs.sys A).run s (List.replicate (n + 1) .recover) = (Fs.sys A).run s' (List.replicate n .recover) := by
      have hstep : (Fs.sys A).step s .recover = some s' := hs
      rw [List.replicate_succ, Sys.run, hstep, Option.bind_some]
    rw [hrun, ← htxn]
    rcases hphase with hst' | hup
    · exact ih hinv hst' (by omega)
    · have hzero : n = 0 := by
        have : recoveryLeft A s' = 0 := by simp only [recoveryLeft, hup]
        omega
      subst hzero
      exact ⟨s', rfl, hup, hinv, rfl⟩

end LogAux

/-- An operation that changes the block 60 and is committed up to the first block that is written to its place. -/
def Fs.sampleRun : List FsAct :=
  List.replicate 3 .recover ++
    [.beginOp 1, .bget 1 60, .breadLock 1 1, .logWrite 1 1 fun _ => 7, .releasesleep 1 1, .bput 1 1, .endOp 1, .commit, .commit, .commit]

theorem Fs.init_zero : (sys mkfsLog).init (boot fun _ _ => Block.zero) := by
  refine ⟨_, ?_, rfl⟩
  decide +kernel

open LogAux

/-- Whatever the processes do, and wherever the power goes off, during a commit or a recovery too, the machine behaves as a disk whose
contents are made stable only as a whole and only when no operation is running: each step is the one step of that disk that `txnAct` names
for it, and every other step changes neither what is stable nor what is current. -/
theorem log_refines_transactions (A : LogArea) :
    (∀ s, (Fs.sys A).init s → Txn.sys.init (s.txn A)) ∧
      ∀ s a s', (Fs.sys A).Reach (Fs.Kept A) s → Fs.Kept A s a → Fs.step A s a = some s' →
        (s.txn A).stepOrStay (s.txnAct A a) = some (s'.txn A) := by
  refine ⟨?_, fun s a s' h hok hs => (step_inv (inv_of_reach h) hok hs).2⟩
  rintro s ⟨disk, -, rfl⟩
  rw [txn_boot]
  exact ⟨rfl, rfl⟩

/-- The last step of the run is the commit: the block is still the old one on the disk, and stable with its new contents. -/
theorem log_refines_transactions_sample : ∃ s s', (Fs.sys mkfsLog).Reach (Fs.Kept mkfsLog) s ∧ Fs.step mkfsLog s .commit = some s' ∧
    Fs.recovered mkfsLog (s.io.disk ROOTDEV) 60 0 = 0 ∧ s'.io.disk ROOTDEV 60 0 = 0 ∧
    Fs.recovered mkfsLog (s'.io.disk ROOTDEV) 60 0 = 7 ∧ (s.txn mkfsLog).step .commit = some (s'.txn mkfsLog) := by
  have hrun : (((Fs.sys mkfsLog).runOk (Fs.Kept mkfsLog) (Fs.boot fun _ _ => Block.zero) (Fs.sampleRun.take 12)).bind fun s =>
      (Fs.step mkfsLog s .commit).map fun s' => (s.phase, Fs.recovered mkfsLog (s.io.disk ROOTDEV) 60 0, s'.io.disk ROOTDEV 60 0,
        Fs.recovered mkfsLog (s'.io.disk ROOTDEV) 60 0)) = some (.writeHead, 0, 0, 7) := by
    decide +kernel
  obtain ⟨s, hs, hmap⟩ := Option.bind_eq_some_iff.mp hrun
  obtain ⟨s', hs', hval⟩ := Option.map_eq_some_iff.mp hmap
  simp only [Prod.mk.injEq] at hval
  obtain ⟨hphase, h1, h2, h3⟩ := hval
  have hreach := Sys.Reach.runOk (.init Fs.init_zero) hs
  have hstep := (log_refines_transactions mkfsLog).2 s .commit s' hreach trivial hs'
  rw [Fs.txnAct, if_pos hphase] at hstep
  exact ⟨s, s', hreach, hs', h1, h2, h3, hstep⟩

/-- Wherever the power goes off, the next start writes out what the log holds and clears it, without a panic and without waiting for
anyone: afterwards every block, on the disk and for every reader, is as the stable contents say. -/
theorem recovery_completes {A : LogArea} {s : Fs} (h : (Fs.sys A).Reach (Fs.Kept A) s) :
    ∃ s', (Fs.sys A).run (Fs.boot s.io.disk) (List.replicate ((headerOf (s.io.disk ROOTDEV A.start)).length + 3) .recover) = some s' ∧
      s'.phase = .up ∧ headerOf (s'.io.disk ROOTDEV A.start) = [] ∧
      ∀ b : { b // A.Home b }, s'.io.disk ROOTDEV b.1 = (s.txn A).stable b ∧ s'.io.view b.1 = (s.txn A).stable b := by
  have hinv := boot_inv (inv_of_reach h).header
  obtain ⟨s', hrun, hup, hinv', htxn⟩ := recovery_run hinv rfl rfl
  have hph := hinv'.phase
  simp only [PhaseOk, hup] at hph
  obtain ⟨-, hhead, hlh⟩ := hph
  refine ⟨s', hrun, hup, hhead, fun b => ?_⟩
  rw [txn_boot] at htxn
  have hview : s'.io.view b.1 = (s.txn A).stable b := by
    rw [← current_of_up (A := A) (by rw [hup]; rfl)]
    exact congrFun (congrArg Txn.current htxn) b
  have hempty : LogAux.pins s' = [] := by
    simp only [LogAux.pins, hup]
    exact hlh (congrArg Txn.active htxn)
  refine ⟨?_, hview⟩
  rw [← hview, hinv'.view_of_not_mem]
  rw [hempty]
  exact List.not_mem_nil

theorem recovery_completes_sample : ∃ s, (Fs.sys mkfsLog).Reach (Fs.Kept mkfsLog) s ∧ s.phase = .install 0 ∧
    ∃ s', (Fs.sys mkfsLog).run (Fs.boot s.io.disk)
        (List.replicate ((headerOf (s.io.disk ROOTDEV mkfsLog.start)).length + 3) .recover) = some s' ∧
      s'.phase = .up ∧ headerOf (s'.io.disk ROOTDEV mkfsLog.start) = [] ∧
      ∀ b : { b // mkfsLog.Home b }, s'.io.disk ROOTDEV b.1 = (s.txn mkfsLog).stable b ∧ s'.io.view b.1 = (s.txn mkfsLog).stable b := by
  have hrun : (((Fs.sys mkfsLog).runOk (Fs.Kept mkfsLog) (Fs.boot fun _ _ => Block.zero) Fs.sampleRun).map fun s =>
      s.phase) = some (.install 0) := by
    decide +kernel
  obtain ⟨s, hs, hphase⟩ := Option.map_eq_some_iff.mp hrun
  have hreach := Sys.Reach.runOk (.init Fs.init_zero) hs
  exact ⟨s, hreach, hphase, recovery_completes hreach⟩

/-- In every state that is reached, who holds a buffer of `bread` has in it what was last written to its block, no other buffer has the
block, and every buffer is counted as often as somebody waits for it, holds it or is about to let it go. -/
theorem locked_buffer_is_current {A : LogArea} {x : Fs × (Nat → Block)} (h : (Fs.noted A).Reach (fun x => Fs.Kept A x.1) x) :
    (∀ i p, x.1.io.locks i = some p → (x.1.io.bc.buf i).data = x.2 (x.1.io.bc.buf i).blockno ∧
        ∀ j, (x.1.io.bc.buf j).caches (x.1.io.bc.buf i).blockno = true → j = i) ∧
      ∀ j, (x.1.io.bc.buf j).refcnt =
        (x.1.waiting.map Prod.snd).count j + (x.1.leaving.map Prod.snd).count j + if (x.1.io.locks j).isSome then 1 else 0 := by
  have hinv := inv_of_reach (Sys.Reach.of_noting (fun _ _ hok => hok) h)
  refine ⟨fun i p hi => ?_, fun j => (hinv.good.ok.refs j).trans (count_refs x.1 j)⟩
  obtain ⟨hmem, hv⟩ := hinv.good.of_lock hi
  refine ⟨?_, fun j hj => ?_⟩
  · rw [last_of_noted h _ (hinv.home i hmem), current_of_up (hinv.started hmem)]
    exact hinv.good.data_eq hv
  · obtain ⟨-, hd, hb⟩ := Buf.caches_iff.mp hj
    exact hinv.good.ok.uniq j i hd (hinv.good.ok.dev_of_valid hv) hb

theorem locked_buffer_is_current_sample : ∃ x, (Fs.noted mkfsLog).Reach (fun x => Fs.Kept mkfsLog x.1) x ∧
    (x.1.io.bc.buf 1).blockno = 60 ∧ x.2 60 0 = 7 ∧ (x.1.io.bc.buf 1).data = x.2 (x.1.io.bc.buf 1).blockno := by
  have hrun : (((Fs.noted mkfsLog).runOk (fun x => Fs.Kept mkfsLog x.1) (Fs.boot fun _ _ => Block.zero, fun _ => Block.zero)
      (Fs.sampleRun.take 7)).map fun x => (x.1.io.locks 1, (x.1.io.bc.buf 1).blockno, x.2 60 0)) = some (some 1, 60, 7) := by
    decide +kernel
  obtain ⟨x, hx, hval⟩ := Option.map_eq_some_iff.mp hrun
  simp only [Prod.mk.injEq] at hval
  obtain ⟨h1, h2, h3⟩ := hval
  have hinit : (Fs.noted mkfsLog).init (Fs.boot fun _ _ => Block.zero, fun _ => Block.zero) := ⟨Fs.init_zero, rfl⟩
  have hreach := Sys.Reach.runOk (.init hinit) hx
  exact ⟨x, hreach, h2, h3, ((locked_buffer_is_current hreach).1 1 1 h1).1⟩

end OsLab
