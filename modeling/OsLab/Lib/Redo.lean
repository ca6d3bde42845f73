import OsLab.Lib.Run

/-!
# Writes that are done over, and disks with transactions

`install d ws` is the array `d` after the writes of the list. Doing a list of writes over, from any state in which some of them have
been done already, comes to the same (`install_of_partial`): this is why a redo log may be cut short anywhere and started again.

`Txn` is what such a log is for. Operations write to the current contents; when no operation is running the current contents may be
made stable, all at once; and a crash takes the machine back to the contents that are stable. So the stable contents are always the
contents at a moment when no operation was running, and after a crash nothing is left of an operation that had not finished.
-/

namespace OsLab

open Function (update update_self update_of_ne)

variable {ι β : Type*} [DecidableEq ι] {d : ι → β} {ws : List (ι × β)}

/-- The array after a list of writes. -/
def install (d : ι → β) (ws : List (ι × β)) : ι → β := ws.foldl (fun d w => update d w.1 w.2) d

@[simp] theorem install_nil (d : ι → β) : install d [] = d := rfl

theorem install_cons (d : ι → β) (w : ι × β) (ws : List (ι × β)) : install d (w :: ws) = install (update d w.1 w.2) ws := rfl

/-- What is not written stays. -/
theorem install_of_not_mem {i : ι} (h : i ∉ ws.map Prod.fst) : install d ws i = d i := by
  induction ws generalizing d with
  | nil => rfl
  | cons w ws ih =>
    rw [List.map_cons, List.mem_cons, not_or] at h
    rw [install_cons, ih h.2, update_of_ne h.1]

/-- Where no place is written twice, every write is there in the end. -/
theorem install_of_mem (hnd : (ws.map Prod.fst).Nodup) {i : ι} {v : β} (h : (i, v) ∈ ws) : install d ws i = v := by
  induction ws generalizing d with
  | nil => cases h
  | cons w ws ih =>
    rw [List.map_cons, List.nodup_cons] at hnd
    rcases List.mem_cons.mp h with rfl | h
    · rw [install_cons, install_of_not_mem hnd.1, update_self]
    · exact ih hnd.2 h

/-- Two states that differ only where something is written come to the same. -/
theorem install_of_partial {d' : ι → β} (h : ∀ i, i ∉ ws.map Prod.fst → d' i = d i) : install d' ws = install d ws := by
  induction ws generalizing d d' with
  | nil => exact funext fun i => h i List.not_mem_nil
  | cons w ws ih =>
    rw [install_cons, install_cons]
    refine ih fun i hi => ?_
    by_cases hiw : i = w.1
    · rw [hiw, update_self, update_self]
    · rw [update_of_ne hiw, update_of_ne hiw]
      exact h i (by rw [List.map_cons, List.mem_cons, not_or]; exact ⟨hiw, hi⟩)

/-! ## Transactions -/

/-- The contents that survive a crash, the contents that an operation reads and writes, and how many operations are running. -/
@[ext] structure Txn (ι β : Type*) where
  stable : ι → β
  current : ι → β
  active : Nat

/-- What happens to a disk with transactions. -/
inductive TxnAct (ι β : Type*) where
  | start
  | write (i : ι) (v : β)
  | finish
  | commit
  | crash

namespace Txn

/-- One step. -/
def step (t : Txn ι β) : TxnAct ι β → Option (Txn ι β)
  | .start => some { t with active := t.active + 1 }
  | .write i v => if t.active = 0 then none else some { t with current := update t.current i v }
  | .finish => if t.active = 0 then none else some { t with active := t.active - 1 }
  | .commit => if t.active = 0 then some { t with stable := t.current } else none
  | .crash => some { t with current := t.stable, active := 0 }

/-- A step, or none at all. -/
def stepOrStay (t : Txn ι β) : Option (TxnAct ι β) → Option (Txn ι β)
  | none => some t
  | some a => t.step a

variable {t t' : Txn ι β} {i : ι} {v : β}

theorem current_of_write (h : t.step (.write i v) = some t') : t'.current = update t.current i v := by
  cases (Option.ite_none_left_eq_some.mp h).2
  rfl

/-- Only writes and crashes change the current contents. -/
theorem current_of_step {a : Option (TxnAct ι β)} (h : t.stepOrStay a = some t') (hwrite : ∀ i v, a ≠ some (.write i v))
    (hcrash : a ≠ some .crash) : t'.current = t.current := by
  rcases a with - | a
  · cases h
    rfl
  cases a with
  | start => cases h; rfl
  | write i v => exact absurd rfl (hwrite i v)
  | finish =>
    cases (Option.ite_none_left_eq_some.mp h).2
    rfl
  | commit =>
    cases (Option.ite_none_right_eq_some.mp h).2
    rfl
  | crash => exact absurd rfl hcrash

theorem step_write (h : t.active ≠ 0) : t.step (.write i v) = some { t with current := update t.current i v } := if_neg h

theorem step_finish (h : t.active ≠ 0) : t.step .finish = some { t with active := t.active - 1 } := if_neg h

theorem step_commit (h : t.active = 0) : t.step .commit = some { t with stable := t.current } := if_pos h

/-- A disk with transactions, from any contents. -/
def sys : Sys (Txn ι β) (TxnAct ι β) where
  init t := t.current = t.stable ∧ t.active = 0
  step := step

end Txn

end OsLab
