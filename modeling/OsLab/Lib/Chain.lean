import Mathlib.Data.Fintype.Card
import Mathlib.Data.List.Nodup
import Mathlib.Data.Fintype.List

/-!
# Singly linked chains

Cells of a type `α` linked by pointers. `next a` is the pointer that the cell `a` holds, with `none` the null pointer; it is
itself `none` when there is no cell of the right kind at `a`, so that to follow a pointer to `a` would be a mistake. `Chain
next h l e` says that following the pointers from `h` visits the cells of `l` and then has `e` in hand; with the null pointer
for `e`, it is the chain that starts at `h`, it repeats no cell and there is only one.

A loop that follows pointers might not end, so `seek` takes a bound on its turns and says so when the bound is used up. On a
chain over finitely many cells `Chain.seek_cases` says that it is not, and what is found.
-/

namespace OsLab

/-- The pointers lead from `h` through the cells of the list to `e`. -/
def Chain {α : Type*} (next : α → Option (Option α)) : Option α → List α → Option α → Prop
  | h, [], e => h = e
  | h, a :: l, e => h = some a ∧ ∃ m, next a = some m ∧ Chain next m l e

/-- How a search along the pointers ends. -/
inductive Seek (α : Type*) where
  /-- At a cell that meets the test, with the cell before it. -/
  | found (prev : Option α) (a : α)
  /-- At the null pointer. -/
  | absent
  /-- At a pointer to something that is no cell. -/
  | dangling
  /-- Not within the bound. -/
  | endless
  deriving DecidableEq

/-- The loop that follows the pointers from `cur`, with `prev` the cell before, until a cell meets the test. -/
def seek {α : Type*} (next : α → Option (Option α)) (p : α → Bool) : Nat → Option α → Option α → Seek α
  | 0, _, _ => .endless
  | _ + 1, _, none => .absent
  | n + 1, prev, some a =>
    match next a with
    | none => .dangling
    | some m => if p a then .found prev a else seek next p n (some a) m

/-- The cells visited in so many turns. -/
def walk {α : Type*} (next : α → Option (Option α)) : Nat → Option α → List α
  | 0, _ => []
  | _ + 1, none => []
  | n + 1, some a => a :: walk next n ((next a).getD none)

namespace Chain

variable {α : Type*} {next next' : α → Option (Option α)} {h e : Option α} {l l₁ l₂ : List α}

@[simp] theorem nil_iff : Chain next h [] e ↔ h = e := Iff.rfl

@[simp] theorem cons_iff {a : α} : Chain next h (a :: l) e ↔ h = some a ∧ ∃ m, next a = some m ∧ Chain next m l e := Iff.rfl

theorem append_iff : Chain next h (l₁ ++ l₂) e ↔ ∃ m, Chain next h l₁ m ∧ Chain next m l₂ e := by
  induction l₁ generalizing h with
  | nil => simp
  | cons a l₁ ih =>
    simp only [List.cons_append, cons_iff, ih]
    constructor
    · rintro ⟨rfl, m, hm, k, h₁, h₂⟩
      exact ⟨k, ⟨rfl, m, hm, h₁⟩, h₂⟩
    · rintro ⟨k, ⟨rfl, m, hm, h₁⟩, h₂⟩
      exact ⟨rfl, m, hm, k, h₁, h₂⟩

/-- Only the pointers of the cells of the chain matter. -/
theorem congr (hl : Chain next h l e) (hn : ∀ a ∈ l, next' a = next a) : Chain next' h l e := by
  induction l generalizing h with
  | nil => exact hl
  | cons a l ih =>
    obtain ⟨rfl, m, hm, hl⟩ := hl
    refine ⟨rfl, m, ?_, ih hl fun b hb => hn b (List.mem_cons_of_mem a hb)⟩
    rw [hn a List.mem_cons_self, hm]

/-- There is a cell at every place of a chain. -/
theorem isSome_next (hl : Chain next h l e) {a : α} (ha : a ∈ l) : (next a).isSome := by
  obtain ⟨s, t, rfl⟩ := List.append_of_mem ha
  obtain ⟨m, -, -, k, hk, -⟩ := append_iff.mp hl
  simp [hk]

/-- The pointer to the chain is the first cell of it. -/
theorem head?_eq (hl : Chain next h l none) : h = l.head? := by
  cases l with
  | nil => exact hl
  | cons a l => exact hl.1

theorem unique {l' : List α} (hl : Chain next h l none) (hl' : Chain next h l' none) : l = l' := by
  induction l generalizing h l' with
  | nil =>
    have := hl'.head?_eq
    rw [hl.head?_eq] at this
    simpa using this.symm
  | cons a l ih =>
    obtain ⟨rfl, m, hm, hl⟩ := hl
    cases l' with
    | nil => simp at hl'
    | cons b l' =>
      obtain ⟨hab, k, hk, hl'⟩ := hl'
      cases hab
      rw [hm] at hk
      cases hk
      rw [ih hl hl']

/-- A chain repeats no cell: from a repeated cell on, the rest of it would be both itself and longer. -/
theorem nodup (hl : Chain next h l none) : l.Nodup := by
  induction l generalizing h with
  | nil => exact List.nodup_nil
  | cons a l ih =>
    obtain ⟨-, m, hm, hl⟩ := hl
    refine List.nodup_cons.mpr ⟨fun ha => ?_, ih hl⟩
    obtain ⟨s, t, rfl⟩ := List.append_of_mem ha
    obtain ⟨k, -, hk⟩ := append_iff.mp hl
    obtain ⟨rfl, hk⟩ := hk
    have hlong : Chain next (some a) (a :: (s ++ a :: t)) none := ⟨rfl, m, hm, hl⟩
    have hshort : Chain next (some a) (a :: t) none := ⟨rfl, hk⟩
    have hlen := congrArg List.length (hlong.unique hshort)
    simp at hlen
    omega

theorem length_le_card [Fintype α] (hl : Chain next h l none) : l.length ≤ Fintype.card α := hl.nodup.length_le_card

/-- Following the pointers for long enough visits the chain. -/
theorem walk_eq {n : Nat} (hl : Chain next h l none) (hn : l.length ≤ n) : walk next n h = l := by
  induction l generalizing h n with
  | nil =>
    rw [nil_iff] at hl
    subst hl
    cases n <;> rfl
  | cons a l ih =>
    obtain ⟨rfl, m, hm, hl⟩ := hl
    cases n with
    | zero => simp at hn
    | succ n => rw [walk, hm, Option.getD_some, ih hl (by simpa using hn)]

/-- What a search along a chain finds: the first cell that meets the test, with the one before it, or that there is none. -/
theorem seek_cases (p : α → Bool) (prev : Option α) {n : Nat} (hl : Chain next h l none) (hn : l.length < n) :
    (∃ l₁ c l₂, l = l₁ ++ c :: l₂ ∧ (∀ b ∈ l₁, p b = false) ∧ p c = true ∧
      seek next p n prev h = .found (l₁.getLast?.or prev) c) ∨
    ((∀ b ∈ l, p b = false) ∧ seek next p n prev h = .absent) := by
  induction l generalizing h n prev with
  | nil =>
    rw [nil_iff] at hl
    subst hl
    obtain ⟨n, rfl⟩ := Nat.exists_eq_succ_of_ne_zero (by omega : n ≠ 0)
    exact .inr ⟨by simp, rfl⟩
  | cons a l ih =>
    obtain ⟨rfl, m, hm, hl⟩ := hl
    obtain ⟨n, rfl⟩ := Nat.exists_eq_succ_of_ne_zero (by omega : n ≠ 0)
    simp only [seek, hm]
    by_cases hp : p a = true
    · exact .inl ⟨[], a, l, rfl, by simp, hp, by simp [hp]⟩
    · simp only [hp, Bool.false_eq_true, ↓reduceIte]
      rcases ih (some a) hl (by simpa using hn) with ⟨l₁, c, l₂, rfl, hnot, hc, heq⟩ | ⟨hnot, heq⟩
      · refine .inl ⟨a :: l₁, c, l₂, rfl, ?_, hc, ?_⟩
        · simpa [hp] using hnot
        · rw [heq, List.getLast?_cons]
          cases l₁.getLast? <;> rfl
      · exact .inr ⟨by simpa [hp] using hnot, heq⟩

/-- A cell that points to nothing is linked behind the last one. -/
theorem snoc {t b : α} (hl : Chain next h l none) (ht : l.getLast? = some t) (ht' : next' t = some (some b))
    (hb : next' b = some none) (hn : ∀ a ∈ l, a ≠ t → next' a = next a) : Chain next' h (l ++ [b]) none := by
  obtain ⟨r, rfl⟩ := List.getLast?_eq_some_iff.mp ht
  have hnd := hl.nodup
  obtain ⟨m, hr, rfl, -⟩ := append_iff.mp hl
  have hr' : Chain next' h r (some t) := by
    refine hr.congr fun a ha => hn a (by simp [ha]) ?_
    exact (List.nodup_append.mp hnd).2.2 a ha t (by simp)
  rw [List.append_assoc]
  exact append_iff.mpr ⟨some t, hr', rfl, some b, ht', rfl, none, hb, rfl⟩

/-- A cell is unlinked: the pointer to it, in the head or in the cell before it, is given what the cell points to. -/
theorem unlink {c : α} {m h' : Option α} (hl : Chain next h (l₁ ++ c :: l₂) none) (hc : next c = some m)
    (hh : h' = if l₁.getLast?.isSome then h else m) (hp : ∀ p, l₁.getLast? = some p → next' p = some m)
    (hn : ∀ a ∈ l₁ ++ l₂, l₁.getLast? ≠ some a → next' a = next a) : Chain next' h' (l₁ ++ l₂) none := by
  have hnd := hl.nodup
  obtain ⟨k, h₁, rfl, m', hm', h₂⟩ := append_iff.mp hl
  rw [hc] at hm'
  cases hm'
  have hlast : ∀ a ∈ l₂, l₁.getLast? ≠ some a := by
    intro a ha hla
    have : a ∈ l₁ := List.mem_of_getLast? hla
    exact (List.nodup_append.mp hnd).2.2 a this a (List.mem_cons_of_mem c ha) rfl
  have h₂' : Chain next' m l₂ none := h₂.congr fun a ha => hn a (by simp [ha]) (hlast a ha)
  rcases List.eq_nil_or_concat' l₁ with rfl | ⟨r, p, rfl⟩
  · simpa [hh] using h₂'
  · have hr : Chain next h r (some p) := by
      obtain ⟨k, hr, rfl, -⟩ := append_iff.mp h₁
      exact hr
    have hr' : Chain next' h r (some p) := by
      refine hr.congr fun a ha => hn a (by simp [ha]) fun hap => ?_
      have hpa : p = a := by simpa using hap
      have hnd' := (List.nodup_append.mp hnd).1
      exact (List.nodup_append.mp hnd').2.2 a ha p (by simp) hpa.symm
    have hp' := hp p (by simp)
    have hh' : h' = h := by simpa using hh
    subst hh'
    rw [List.append_assoc]
    exact append_iff.mpr ⟨some p, hr', rfl, m, hp', h₂'⟩

/-- The last cell after an unlinking is the one that the tail pointer is set to. -/
theorem getLast?_unlink {c : α} [DecidableEq α] (hl : Chain next h (l₁ ++ c :: l₂) none) :
    (l₁ ++ l₂).getLast? =
      if (l₁ ++ c :: l₂).getLast? = some c then l₁.getLast? else (l₁ ++ c :: l₂).getLast? := by
  have hnd := hl.nodup
  cases l₂ with
  | nil => simp
  | cons b l₂ =>
    have hlast : ∀ r : List α, (r ++ b :: l₂).getLast? = (b :: l₂).getLast? := by
      intro r
      rw [List.getLast?_append, List.getLast?_cons]
      rfl
    have hne : (b :: l₂).getLast? ≠ some c := by
      intro hc
      have : c ∈ b :: l₂ := List.mem_of_getLast? hc
      exact (List.nodup_cons.mp (List.nodup_append.mp hnd).2.1).1 this
    have hlast' : (l₁ ++ c :: b :: l₂).getLast? = (b :: l₂).getLast? := by simpa using hlast (l₁ ++ [c])
    rw [hlast', hlast, if_neg hne]

end Chain

end OsLab
