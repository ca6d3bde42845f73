import OsLab.Lib.Run
import Mathlib.Data.List.Nodup

/-!
# Registries

Entries under distinct keys, numbered in the order in which they are made. An entry leaves by its number, and a number that has left
does not come back (`Registry.Gone`).
-/

namespace OsLab

/-- An entry: its number, the key it is under, and where what it stands for is. -/
structure Entry (K ι : Type*) where
  num : Nat
  key : K
  place : ι

/-- The entries, newest first, and how many have ever been made. -/
structure Registry (K ι : Type*) where
  made : Nat
  entries : List (Entry K ι)

/-- What happens to a registry. -/
inductive RegistryAct (K ι : Type*) where
  | enter (k : K) (i : ι)
  | leave (n : Nat)

namespace Registry

variable {K ι : Type*} {r r' : Registry K ι} {n : Nat}

/-- No two entries have a key or a number in common, and no number is one to come. -/
structure Ok (r : Registry K ι) : Prop where
  keys : (r.entries.map Entry.key).Nodup
  nums : (r.entries.map Entry.num).Nodup
  old : ∀ e ∈ r.entries, e.num < r.made

/-- The number was given once, and its entry has left. -/
def Gone (r : Registry K ι) (n : Nat) : Prop := n < r.made ∧ ∀ e ∈ r.entries, e.num ≠ n

/-- The number that an entry to be made will have is that of no other. -/
theorem Ok.fresh (h : r.Ok) : r.made ∉ r.entries.map Entry.num := by
  rintro hmem
  obtain ⟨e, he, hnum⟩ := List.mem_map.mp hmem
  exact absurd hnum (Nat.ne_of_lt (h.old e he))

variable [DecidableEq K]

/-- One step: an entry is made only under a key that no other has. -/
def step (r : Registry K ι) : RegistryAct K ι → Option (Registry K ι)
  | .enter k i => if k ∈ r.entries.map Entry.key then none else some ⟨r.made + 1, ⟨r.made, k, i⟩ :: r.entries⟩
  | .leave n => some { r with entries := r.entries.filter (·.num ≠ n) }

/-- The registries, from an empty one. -/
def sys : Sys (Registry K ι) (RegistryAct K ι) where
  init r := r.made = 0 ∧ r.entries = []
  step := step

theorem Ok.step {a : RegistryAct K ι} (h : r.Ok) (hs : r.step a = some r') : r'.Ok := by
  cases a with
  | enter k i =>
    simp only [Registry.step, Option.ite_none_left_eq_some, Option.some.injEq] at hs
    obtain ⟨hk, rfl⟩ := hs
    constructor
    · exact List.nodup_cons.mpr ⟨hk, h.keys⟩
    · exact List.nodup_cons.mpr ⟨h.fresh, h.nums⟩
    · intro e he
      rcases List.mem_cons.mp he with rfl | he
      · exact Nat.lt_succ_self _
      · exact Nat.lt_succ_of_lt (h.old e he)
  | leave n =>
    cases hs
    constructor
    · exact h.keys.sublist (List.filter_sublist.map _)
    · exact h.nums.sublist (List.filter_sublist.map _)
    · intro e he
      exact h.old e (List.mem_filter.mp he).1

theorem Gone.step {a : RegistryAct K ι} (h : r.Gone n) (hs : r.step a = some r') : r'.Gone n := by
  cases a with
  | enter k i =>
    simp only [Registry.step, Option.ite_none_left_eq_some, Option.some.injEq] at hs
    obtain ⟨-, rfl⟩ := hs
    refine ⟨Nat.lt_succ_of_lt h.1, fun e he => ?_⟩
    rcases List.mem_cons.mp he with rfl | he
    · exact Nat.ne_of_gt h.1
    · exact h.2 e he
  | leave m =>
    cases hs
    exact ⟨h.1, fun e he => h.2 e (List.mem_filter.mp he).1⟩

/-- Every registry reached from an empty one is in order. -/
theorem ok_of_reachable (h : (sys : Sys (Registry K ι) (RegistryAct K ι)).Reachable r) : r.Ok := by
  refine Sys.Reach.invariant (I := Ok) ?_ (fun r a r' hr _ hs => hr.step hs) h
  rintro r ⟨-, hr⟩
  constructor <;> simp [hr]

/-- An entry that has left does not come back. -/
theorem Gone.stays (h : r.Gone n) (h' : (sys.after r).Reachable r') : r'.Gone n := by
  refine Sys.Reach.invariant (I := fun r => r.Gone n) ?_ (fun r a r' hr _ hs => hr.step hs) h'
  rintro r' rfl
  exact h

end Registry

end OsLab
