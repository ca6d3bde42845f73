import Mathlib.Data.List.Basic

/-!
# Cutting a list into records

A list is read from the front and cut into records: a record is over when `ends` says so of what it has become, and at the end of
the list. With `ends` a test for a last element the records are the lines of a text; with a bound on the length as well they are
the pieces that a reader with a buffer of that size sees.
-/

namespace OsLab

variable {α : Type*} (ends : List α → Bool) {r : List α}

/-- The records of a list, when the part `cur` of the first one has been read already. -/
def recordsFrom (cur : List α) : List α → List (List α)
  | [] => if cur.isEmpty then [] else [cur]
  | a :: as => if ends (cur ++ [a]) then (cur ++ [a]) :: recordsFrom [] as else recordsFrom (cur ++ [a]) as

/-- The records of a list. -/
def records (l : List α) : List (List α) := recordsFrom ends [] l

/-- A record is over after `n` elements as well. -/
def endsBy (n : Nat) (r : List α) : Bool := ends r || r.length == n

variable {ends} {cur l : List α} {n : Nat}

theorem recordsFrom_nil (h : cur ≠ []) : recordsFrom ends cur [] = [cur] := by simp [recordsFrom, h]

theorem recordsFrom_ends {a : α} (h : ends (cur ++ [a]) = true) :
    recordsFrom ends cur (a :: l) = (cur ++ [a]) :: recordsFrom ends [] l := if_pos h

theorem recordsFrom_goes {a : α} (h : ends (cur ++ [a]) = false) :
    recordsFrom ends cur (a :: l) = recordsFrom ends (cur ++ [a]) l := if_neg (by simp [h])

/-- Nothing is lost, and the order is kept. -/
theorem flatten_recordsFrom : (recordsFrom ends cur l).flatten = cur ++ l := by
  induction l generalizing cur with
  | nil => cases cur <;> simp [recordsFrom]
  | cons a as ih =>
    unfold recordsFrom
    split <;> simp [ih]

/-- What is in a record is in the list. -/
theorem subset_of_mem_records (hr : r ∈ records ends l) : r ⊆ l := by
  intro a ha
  have hflat : (records ends l).flatten = l := flatten_recordsFrom
  rw [← hflat]
  exact List.mem_flatten.mpr ⟨r, hr, ha⟩

/-- The first record goes on from the part that has been read. -/
theorem recordsFrom_cons_exists (ends : List α → Bool) (cur : List α) (a : α) (l : List α) :
    ∃ r rs, recordsFrom ends cur (a :: l) = r :: rs ∧ cur.length < r.length := by
  induction l generalizing cur a with
  | nil =>
    unfold recordsFrom
    split
    · exact ⟨_, _, rfl, by simp⟩
    · exact ⟨cur ++ [a], [], recordsFrom_nil (by simp), by simp⟩
  | cons b bs ih =>
    by_cases h : ends (cur ++ [a]) = true
    · exact ⟨_, _, recordsFrom_ends h, by simp⟩
    · obtain ⟨r, rs, hr, hlen⟩ := ih (cur ++ [a]) b
      refine ⟨r, rs, (recordsFrom_goes (by simpa using h)).trans hr, ?_⟩
      rw [List.length_append] at hlen
      omega

theorem ne_nil_of_mem_recordsFrom (hr : r ∈ recordsFrom ends cur l) : r ≠ [] := by
  induction l generalizing cur with
  | nil =>
    unfold recordsFrom at hr
    split at hr
    · cases hr
    · rename_i hne
      rw [List.mem_singleton.mp hr]
      simpa using hne
  | cons a as ih =>
    unfold recordsFrom at hr
    split at hr
    · rcases List.mem_cons.mp hr with rfl | hr
      · exact List.append_ne_nil_of_right_ne_nil _ nofun
      · exact ih hr
    · exact ih hr

/-- A record that is not over is the last one. -/
theorem recordsFrom_eq_append (hr : r ∈ recordsFrom ends cur l) (hends : ends r = false) : ∃ rs, recordsFrom ends cur l = rs ++ [r] := by
  induction l generalizing cur with
  | nil =>
    unfold recordsFrom at hr ⊢
    split at hr
    · cases hr
    · rename_i hne
      rw [if_neg hne, List.mem_singleton.mp hr]
      exact ⟨[], rfl⟩
  | cons a as ih =>
    by_cases h : ends (cur ++ [a]) = true
    · rw [recordsFrom_ends h] at hr ⊢
      rcases List.mem_cons.mp hr with rfl | hr
      · rw [hends] at h
        cases h
      · obtain ⟨rs, hrs⟩ := ih hr
        exact ⟨(cur ++ [a]) :: rs, by rw [hrs, List.cons_append]⟩
    · rw [recordsFrom_goes (by simpa using h)] at hr ⊢
      exact ih hr

/-- A record is not over before its end. -/
theorem ends_take_of_mem_recordsFrom (hcur : ∀ k, k ≤ cur.length → ends (cur.take k) = false) (hr : r ∈ recordsFrom ends cur l) {k : Nat}
    (hk : k < r.length) : ends (r.take k) = false := by
  induction l generalizing cur with
  | nil =>
    unfold recordsFrom at hr
    split at hr
    · cases hr
    · rw [List.mem_singleton.mp hr] at hk ⊢
      exact hcur k (Nat.le_of_lt hk)
  | cons a as ih =>
    have hnil : ∀ k, k ≤ ([] : List α).length → ends (List.take k []) = false := fun k _ => by
      simpa using hcur 0 (Nat.zero_le _)
    by_cases h : ends (cur ++ [a]) = true
    · rw [recordsFrom_ends h] at hr
      rcases List.mem_cons.mp hr with rfl | hr
      · rw [List.length_append, List.length_singleton] at hk
        rw [List.take_append_of_le_length (by omega)]
        exact hcur k (by omega)
      · exact ih hnil hr
    · have hgo : ends (cur ++ [a]) = false := by simpa using h
      rw [recordsFrom_goes hgo] at hr
      refine ih (fun j hj => ?_) hr
      rw [List.length_append, List.length_singleton] at hj
      rcases Nat.lt_or_ge cur.length j with hlt | hle
      · rwa [List.take_of_length_le (by rw [List.length_append, List.length_singleton]; omega)]
      · rw [List.take_append_of_le_length hle]
        exact hcur j hle

theorem ends_take_of_mem_records (h0 : ends [] = false) (hr : r ∈ records ends l) {k : Nat} (hk : k < r.length) :
    ends (r.take k) = false :=
  ends_take_of_mem_recordsFrom (fun k _ => by rwa [List.take_nil]) hr hk

/-- With a bound on the length no record is longer. -/
theorem length_le_of_mem_recordsFrom (hcur : cur.length < n) (hr : r ∈ recordsFrom (endsBy ends n) cur l) : r.length ≤ n := by
  induction l generalizing cur with
  | nil =>
    unfold recordsFrom at hr
    split at hr
    · cases hr
    · rw [List.mem_singleton.mp hr]
      exact Nat.le_of_lt hcur
  | cons a as ih =>
    have hlen : (cur ++ [a]).length = cur.length + 1 := by simp
    by_cases h : endsBy ends n (cur ++ [a]) = true
    · rw [recordsFrom_ends h] at hr
      rcases List.mem_cons.mp hr with rfl | hr
      · omega
      · exact ih (Nat.lt_of_le_of_lt (Nat.zero_le _) hcur) hr
    · have hgo : endsBy ends n (cur ++ [a]) = false := by simpa using h
      rw [recordsFrom_goes hgo] at hr
      refine ih ?_ hr
      simp only [endsBy, Bool.or_eq_false_iff, beq_eq_false_iff_ne] at hgo
      omega

/-- A bound that every record keeps makes no difference. -/
theorem recordsFrom_endsBy (h : ∀ r ∈ recordsFrom ends cur l, r.length ≤ n) :
    recordsFrom (endsBy ends n) cur l = recordsFrom ends cur l := by
  induction l generalizing cur with
  | nil => rfl
  | cons a as ih =>
    by_cases hend : ends (cur ++ [a]) = true
    · rw [recordsFrom_ends hend] at h ⊢
      rw [recordsFrom_ends (by simp [endsBy, hend]), ih fun r hr => h r (List.mem_cons_of_mem _ hr)]
    · have hgo : ends (cur ++ [a]) = false := by simpa using hend
      rw [recordsFrom_goes hgo] at h ⊢
      by_cases hlen : (cur ++ [a]).length = n
      · -- the record is full: had it gone on, it would have passed the bound
        rw [recordsFrom_ends (by simp only [endsBy, hlen, beq_self_eq_true, Bool.or_true])]
        cases as with
        | nil => exact (recordsFrom_nil (by simp)).symm
        | cons b bs =>
          obtain ⟨r, rs, hr, hlt⟩ := recordsFrom_cons_exists ends (cur ++ [a]) b bs
          have hle := h r (by rw [hr]; exact List.mem_cons_self)
          omega
      · rw [recordsFrom_goes (by simp only [endsBy, hgo, Bool.false_or, beq_eq_false_iff_ne]; exact hlen), ih h]

end OsLab
