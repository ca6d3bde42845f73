import Mathlib.Data.List.Basic

/-!
# A ring of cells

The elements of a list are put into a ring of `n` cells, the `j`-th into the cell `j % n`. The ring then holds the last `n` of them,
and they come out in order from the cell after the last put.
-/

namespace OsLab

variable {α : Type*}

/-- The ring holds the last `n` elements of `xs`. -/
structure RingHolds (n : Nat) (xs : List α) (cells : List (Option α)) : Prop where
  length : cells.length = n
  cell : ∀ j x, xs[j]? = some x → xs.length ≤ j + n → cells[j % n]? = some (some x)

variable {n : Nat} {xs : List α} {cells : List (Option α)}

theorem RingHolds.empty (n : Nat) : RingHolds n ([] : List α) (List.replicate n none) :=
  ⟨List.length_replicate, fun _ _ h => by simp at h⟩

/-- Within a window of `n` no two numbers have the same cell. -/
theorem mod_ne_of_lt {j k : Nat} (h1 : j < k) (h2 : k < j + n) : j % n ≠ k % n := by
  intro h
  have hdvd : n ∣ k - j := Nat.dvd_of_mod_eq_zero (Nat.sub_mod_eq_zero_of_mod_eq h.symm)
  have := Nat.le_of_dvd (by omega) hdvd
  omega

/-- The next element takes the place of the oldest. -/
theorem RingHolds.put (hn : 0 < n) (h : RingHolds n xs cells) (x : α) :
    RingHolds n (xs ++ [x]) (cells.set (xs.length % n) (some x)) := by
  refine ⟨by rw [List.length_set, h.length], fun j y hj hwin => ?_⟩
  rw [List.length_append, List.length_singleton] at hwin
  have hlt : j < (xs ++ [x]).length := (List.getElem?_eq_some_iff.mp hj).1
  rw [List.length_append, List.length_singleton] at hlt
  by_cases hlast : j = xs.length
  · subst hlast
    rw [List.getElem?_concat_length, Option.some.injEq] at hj
    subst hj
    have hcell : xs.length % n < cells.length := by
      rw [h.length]
      exact Nat.mod_lt _ hn
    exact List.getElem?_set_self hcell
  · have hbefore : j < xs.length := by omega
    rw [List.getElem?_append_left hbefore] at hj
    rw [List.getElem?_set_ne (mod_ne_of_lt hbefore (by omega)).symm]
    exact h.cell j y hj (by omega)

/-- The cell from which the elements come out in order. -/
def ringStart (n count : Nat) : Nat := if n < count then count % n else 0

/-- The `i`-th of the last `n` elements. -/
theorem RingHolds.get (h : RingHolds n xs cells) {i : Nat} {x : α} (hx : (xs.drop (xs.length - n))[i]? = some x) :
    cells[(ringStart n xs.length + i) % n]? = some (some x) := by
  rw [List.getElem?_drop] at hx
  have hcell := h.cell _ x hx (by omega)
  rwa [show (xs.length - n + i) % n = (ringStart n xs.length + i) % n by
    unfold ringStart
    split
    · rename_i hlt
      rw [Nat.mod_add_mod, show xs.length + i = xs.length - n + i + n by omega, Nat.add_mod_right]
    · rename_i hle
      rw [show xs.length - n = 0 by omega]] at hcell

end OsLab
