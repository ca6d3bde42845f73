import Mathlib.Data.List.Sort

/-!
# Comparison functions

A comparison function answers with a number below zero, zero or above it. `TotalPreorder` says that the answers are those of a total
preorder; a `Sorter` is a function that sorts by any such comparison.
-/

namespace OsLab

variable {α β : Type*}

/-- The answers of `f` are those of a total preorder. -/
structure TotalPreorder (f : α → α → Int) : Prop where
  swap : ∀ a b, f a b < 0 ↔ 0 < f b a
  trans : ∀ a b c, f a b ≤ 0 → f b c ≤ 0 → f a c ≤ 0

namespace TotalPreorder

variable {f : α → α → Int}

/-- The signs of `f` are those of a strict order `r`. -/
theorem of_lt {r : α → α → Prop} (neg : ∀ a b, f a b < 0 ↔ r a b) (pos : ∀ a b, 0 < f a b ↔ r b a)
    (trans : ∀ a b c, ¬ r b a → ¬ r c b → ¬ r c a) : TotalPreorder f := by
  refine ⟨fun a b => (neg a b).trans (pos b a).symm, fun a b c hab hbc => ?_⟩
  rw [← Int.not_lt, pos] at hab hbc ⊢
  exact trans a b c hab hbc

theorem total (h : TotalPreorder f) (a b : α) : f a b ≤ 0 ∨ f b a ≤ 0 := by
  have := h.swap b a
  omega

/-- Elements compared by something about them. -/
theorem comap (h : TotalPreorder f) (g : β → α) : TotalPreorder fun x y => f (g x) (g y) :=
  ⟨fun a b => h.swap (g a) (g b), fun a b c => h.trans (g a) (g b) (g c)⟩

/-- The comparison the other way round. -/
theorem neg (h : TotalPreorder f) : TotalPreorder fun a b => -f a b := by
  refine ⟨fun a b => ?_, fun a b c hab hbc => ?_⟩
  · have := h.swap b a
    omega
  · have hba := h.swap a b
    have hcb := h.swap b c
    have hca := h.swap a c
    have := h.trans c b a (by omega) (by omega)
    omega

end TotalPreorder

/-- A function that sorts by any comparison that is a total preorder. -/
structure Sorter (α : Type*) where
  sort : (α → α → Int) → List α → List α
  perm : ∀ f l, TotalPreorder f → (sort f l).Perm l
  sorted : ∀ f l, TotalPreorder f → (sort f l).Pairwise fun a b => f a b ≤ 0

/-- Insertion sort is one. -/
def insertionSorter (α : Type*) : Sorter α where
  sort f l := l.insertionSort fun a b => f a b ≤ 0
  perm f l _ := List.perm_insertionSort (fun a b => f a b ≤ 0) l
  sorted f l h :=
    have : Std.Total fun a b => f a b ≤ 0 := ⟨h.total⟩
    have : IsTrans α fun a b => f a b ≤ 0 := ⟨h.trans⟩
    List.pairwise_insertionSort _ l

end OsLab
