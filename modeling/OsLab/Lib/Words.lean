import Mathlib.Data.List.Basic

/-!
# Words

The words of a list are its maximal runs of elements that are not separators, in their order. The rules take a list apart from the front,
as a scanner does, and at a separator anywhere.
-/

namespace OsLab

variable {α : Type*}

/-- The maximal runs of elements that are not separators. -/
def words (sep : α → Bool) (l : List α) : List (List α) := (l.splitOnP sep).filter fun w => !w.isEmpty

section

variable {p : α → Bool} {u v : List α}

/-- A run that stops where the rest begins. -/
theorem takeWhile_append_stop (hu : ∀ a ∈ u, p a = true) (hv : ∀ a ∈ v.head?, p a = false) : (u ++ v).takeWhile p = u := by
  rw [List.takeWhile_append_of_pos hu]
  cases v with
  | nil => rw [List.takeWhile_nil, List.append_nil]
  | cons a v => rw [List.takeWhile_cons_of_neg (by rw [hv a rfl]; exact Bool.false_ne_true), List.append_nil]

theorem dropWhile_append_stop (hu : ∀ a ∈ u, p a = true) (hv : ∀ a ∈ v.head?, p a = false) : (u ++ v).dropWhile p = v := by
  rw [List.dropWhile_append_of_pos hu]
  cases v with
  | nil => rfl
  | cons a v => rw [List.dropWhile_cons_of_neg (by rw [hv a rfl]; exact Bool.false_ne_true)]

theorem head?_dropWhile_eq_false (l : List α) : ∀ a ∈ (l.dropWhile p).head?, p a = false := by
  intro a ha
  have h := List.head?_dropWhile_not p l
  rw [Option.mem_def.mp ha] at h
  exact h

end

variable {sep : α → Bool} {l l' u w : List α} {a : α}

@[simp] theorem words_nil : words sep [] = [] := rfl

/-- A separator parts the words. -/
theorem words_append_cons (ha : sep a = true) : words sep (l ++ a :: l') = words sep l ++ words sep l' := by
  unfold words
  rw [List.splitOnP_append_cons l l' ha, List.filter_append]

theorem words_cons_sep (ha : sep a = true) : words sep (a :: l) = words sep l := words_append_cons (l := []) ha

theorem words_seps_append (hu : ∀ a ∈ u, sep a = true) : words sep (u ++ l) = words sep l := by
  induction u with
  | nil => rfl
  | cons a u ih => rw [List.cons_append, words_cons_sep (hu a List.mem_cons_self), ih fun b hb => hu b (List.mem_cons_of_mem a hb)]

theorem words_eq_nil (hl : ∀ a ∈ l, sep a = true) : words sep l = [] := by
  rw [← List.append_nil l, words_seps_append hl, words_nil]

theorem words_append_seps (hu : ∀ a ∈ u, sep a = true) : words sep (l ++ u) = words sep l := by
  cases u with
  | nil => rw [List.append_nil]
  | cons a u =>
    rw [words_append_cons (hu a List.mem_cons_self), words_eq_nil fun b hb => hu b (List.mem_cons_of_mem a hb), List.append_nil]

theorem words_run (hne : w ≠ []) (hw : ∀ a ∈ w, sep a = false) : words sep w = [w] := by
  unfold words
  rw [List.splitOnP_eq_singleton hw]
  simp [hne]

/-- A run of other elements up to a separator, or to the end, is the first word. -/
theorem words_run_append (hne : w ≠ []) (hw : ∀ a ∈ w, sep a = false) (hl : ∀ a ∈ l.head?, sep a = true) :
    words sep (w ++ l) = w :: words sep l := by
  cases l with
  | nil => rw [List.append_nil, words_run hne hw, words_nil]
  | cons a l => rw [words_append_cons (hl a rfl), words_run hne hw, words_cons_sep (hl a rfl), List.singleton_append]

/-- No element is lost but the separators. -/
theorem flatten_words : (words sep l).flatten = l.filter fun a => !sep a := by
  have hempty : ∀ L : List (List α), (L.filter fun w => !w.isEmpty).flatten = L.flatten := by
    intro L
    induction L with
    | nil => rfl
    | cons w L ih => cases w <;> simp [ih]
  rw [words, hempty]
  induction l with
  | nil => rfl
  | cons a l ih =>
    rw [List.splitOnP_cons_eq_if_modifyHead]
    by_cases ha : sep a = true
    · simp [ha, ih]
    · obtain ⟨h, t, ht⟩ := List.exists_cons_of_ne_nil (List.splitOnP_ne_nil sep l)
      rw [ht] at ih ⊢
      simp only [ha, Bool.false_eq_true, if_false, List.modifyHead_cons, List.flatten_cons, List.cons_append]
      rw [← List.flatten_cons, ih, List.filter_cons_of_pos (by simpa using ha)]

theorem words_eq_nil_iff : words sep l = [] ↔ ∀ a ∈ l, sep a = true := by
  refine ⟨fun h a ha => ?_, words_eq_nil⟩
  have hflat : l.filter (fun a => !sep a) = [] := by rw [← flatten_words, h, List.flatten_nil]
  simpa using List.filter_eq_nil_iff.mp hflat a ha

end OsLab
