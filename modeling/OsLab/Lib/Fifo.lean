import Mathlib.Algebra.Ring.Nat
import Mathlib.Data.List.Basic
import Mathlib.Logic.Function.Basic

/-!
# A queue in a ring, with counters that wrap

The queue is in a ring of `n` cells. Two counters say how many elements have been put in and taken out, both modulo a multiple `m` of
`n`. As `m` is larger than `n`, a queue that is full can be told from one that is empty.
-/

namespace OsLab

variable {α : Type*} {n m : Nat} [NeZero n]

/-- The ring with these counters holds the list, oldest first. -/
structure Fifo.Holds (n m : Nat) [NeZero n] (cells : Fin n → α) (nread nwrite : Nat) (l : List α) : Prop where
  small : nread < m
  length : l.length ≤ n
  write : nwrite = (nread + l.length) % m
  cell : ∀ k x, l[k]? = some x → cells (Fin.ofNat n (nread + k)) = x

namespace Fifo.Holds

variable {cells : Fin n → α} {nread nwrite : Nat} {l : List α}

theorem nil (cells : Fin n → α) (hm : 0 < m) : Holds n m cells 0 0 ([] : List α) :=
  ⟨hm, Nat.zero_le _, by rw [List.length_nil, Nat.add_zero, Nat.zero_mod], fun k x h => by cases h⟩

/-- The counters are the same when nothing is there. -/
theorem empty_iff (h : Holds n m cells nread nwrite l) (hnm : n < m) : nread = nwrite ↔ l = [] := by
  rw [h.write]
  constructor
  · intro heq
    have hlen := h.length
    have hsmall := h.small
    refine List.length_eq_zero_iff.mp ?_
    by_cases hwrap : nread + l.length < m
    · rw [Nat.mod_eq_of_lt hwrap] at heq
      omega
    · rw [Nat.mod_eq_sub_mod (by omega), Nat.mod_eq_of_lt (by omega)] at heq
      omega
  · intro hl
    rw [hl, List.length_nil, Nat.add_zero, Nat.mod_eq_of_lt h.small]

/-- The counters are `n` apart when there is no room. -/
theorem full_iff (h : Holds n m cells nread nwrite l) (hnm : n < m) : nwrite = (nread + n) % m ↔ l.length = n := by
  rw [h.write]
  constructor
  · intro heq
    have hlen := h.length
    have hsmall := h.small
    -- Either sum wraps at most once, and they are less than `m` apart.
    by_cases h1 : nread + l.length < m
    · rw [Nat.mod_eq_of_lt h1] at heq
      by_cases h2 : nread + n < m
      · rw [Nat.mod_eq_of_lt h2] at heq
        omega
      · rw [Nat.mod_eq_sub_mod (by omega), Nat.mod_eq_of_lt (by omega)] at heq
        omega
    · rw [Nat.mod_eq_sub_mod (by omega), Nat.mod_eq_of_lt (by omega), Nat.mod_eq_sub_mod (by omega), Nat.mod_eq_of_lt (by omega)] at heq
      omega
  · intro hl
    rw [hl]

/-- A cell is the same for a counter that has wrapped. -/
theorem ofNat_mod (hdvd : n ∣ m) (k : Nat) : Fin.ofNat n (k % m) = Fin.ofNat n k :=
  Fin.ext (Nat.mod_mod_of_dvd k hdvd)

theorem ofNat_ne {a k : Nat} (h : k < n) {j : Nat} (hj : j < k) : Fin.ofNat n (a + j) ≠ Fin.ofNat n (a + k) := by
  intro heq
  have hmod : (a + j) % n = (a + k) % n := congrArg Fin.val heq
  have hdvd : n ∣ a + k - (a + j) := Nat.dvd_of_mod_eq_zero (Nat.sub_mod_eq_zero_of_mod_eq hmod.symm)
  have hle := Nat.le_of_dvd (by omega) hdvd
  omega

/-- One more. -/
theorem put (h : Holds n m cells nread nwrite l) (hdvd : n ∣ m) (hroom : l.length < n) (x : α) :
    Holds n m (Function.update cells (Fin.ofNat n nwrite) x) nread ((nwrite + 1) % m) (l ++ [x]) := by
  have hcell : Fin.ofNat n nwrite = Fin.ofNat n (nread + l.length) := by rw [h.write, ofNat_mod hdvd]
  refine ⟨h.small, ?_, ?_, fun k y hk => ?_⟩
  · rw [List.length_append, List.length_singleton]
    exact hroom
  · rw [List.length_append, List.length_singleton, h.write, Nat.mod_add_mod, Nat.add_assoc]
  · rw [hcell]
    by_cases hlast : k = l.length
    · subst hlast
      rw [List.getElem?_concat_length, Option.some.injEq] at hk
      rw [Function.update_self, hk]
    · have hlt : k < (l ++ [x]).length := (List.getElem?_eq_some_iff.mp hk).1
      rw [List.length_append, List.length_singleton] at hlt
      have hbefore : k < l.length := by omega
      rw [List.getElem?_append_left hbefore] at hk
      rw [Function.update_of_ne (ofNat_ne hroom hbefore)]
      exact h.cell k y hk

/-- The oldest is in the cell of the first counter, and goes. -/
theorem take {x : α} (h : Holds n m cells nread nwrite (x :: l)) (hdvd : n ∣ m) :
    cells (Fin.ofNat n nread) = x ∧ Holds n m cells ((nread + 1) % m) nwrite l := by
  have hlen := h.length
  rw [List.length_cons] at hlen
  refine ⟨h.cell 0 x rfl, Nat.mod_lt _ (Nat.lt_of_le_of_lt (Nat.zero_le _) h.small), by omega, ?_, fun k y hk => ?_⟩
  · rw [h.write, List.length_cons, Nat.mod_add_mod]
    congr 1
    omega
  · have hk' := h.cell (k + 1) y (by rw [List.getElem?_cons_succ]; exact hk)
    rw [← hk', ← ofNat_mod hdvd, Nat.mod_add_mod, ofNat_mod hdvd]
    congr 2
    omega

end Fifo.Holds

end OsLab
