import Mathlib.Algebra.Ring.Nat
import Mathlib.Data.Fintype.Basic
import Mathlib.Logic.Function.Basic

/-!
# Values in an array of bytes

A value of `k` bytes at a place of an array, the least byte first. `getLE` reads it and `putLE` writes it. What is written is read back
when it fits (`getLE_putLE`), and nothing but the bytes at the place is changed (`putLE_of_outside`).
-/

namespace OsLab

variable {n : Nat} [NeZero n]

/-- The value of `k` bytes at `o`. -/
def getLE (f : Fin n → UInt8) : Nat → Nat → Nat
  | _, 0 => 0
  | o, k + 1 => (f (Fin.ofNat n o)).toNat + 256 * getLE f (o + 1) k

/-- The array with the value `w` in the `k` bytes at `o`. -/
def putLE (f : Fin n → UInt8) : Nat → Nat → Nat → Fin n → UInt8
  | _, 0, _ => f
  | o, k + 1, w => putLE (Function.update f (Fin.ofNat n o) (UInt8.ofNat w)) (o + 1) k (w / 256)

variable {f g : Fin n → UInt8} {o k w : Nat}

/-- Only the bytes at the place count. -/
theorem getLE_congr (hk : o + k ≤ n) (h : ∀ j : Fin n, o ≤ j.val → j.val < o + k → f j = g j) : getLE f o k = getLE g o k := by
  induction k generalizing o with
  | zero => rfl
  | succ k ih =>
    have ho : (Fin.ofNat n o).val = o := Nat.mod_eq_of_lt (by omega)
    rw [getLE, getLE, h _ (by omega) (by omega), ih (by omega) fun j h1 h2 => h j (by omega) (by omega)]

/-- The bytes elsewhere stay. -/
theorem putLE_of_outside (hk : o + k ≤ n) {j : Fin n} (hj : j.val < o ∨ o + k ≤ j.val) : putLE f o k w j = f j := by
  induction k generalizing f o w with
  | zero => rfl
  | succ k ih =>
    have ho : (Fin.ofNat n o).val = o := Nat.mod_eq_of_lt (by omega)
    rw [putLE, ih (by omega) (by omega)]
    refine Function.update_of_ne (fun hjo => ?_) _ _
    rw [hjo] at hj
    omega

/-- What is written is read back. -/
theorem getLE_putLE (hk : o + k ≤ n) (hw : w < 256 ^ k) : getLE (putLE f o k w) o k = w := by
  induction k generalizing f o w with
  | zero =>
    rw [getLE]
    omega
  | succ k ih =>
    have ho : (Fin.ofNat n o).val = o := Nat.mod_eq_of_lt (by omega)
    have hdiv : w / 256 < 256 ^ k := by
      rw [Nat.pow_succ] at hw
      exact Nat.div_lt_of_lt_mul (by omega)
    rw [putLE, getLE, ih (by omega) hdiv, putLE_of_outside (by omega) (by omega), Function.update_self]
    rw [UInt8.toNat_ofNat']
    omega

end OsLab
