import Mathlib.Data.List.Induction
import Mathlib.Data.List.Nodup
import Mathlib.Logic.Function.Basic

/-!
# Doubly linked rings

Nodes linked both ways into a ring through a head that is no node itself; the head is `none`. `Holds L l` says that the ring is
the list `l`: from the head the forward links go through `l` and back to the head, and the backward links go the other way.

`unlink` and `pushFront` are the usual statements on pointers, one after the other. On a ring they take a node out of the list and put
one before it (`Holds.unlink`, `Holds.pushFront`). A search along the links takes a bound on its turns; on a ring it finds what a
search of the list finds, from the front or from the back (`Holds.scan_next`, `Holds.scan_prev`).
-/

namespace OsLab

/-- The two links of every node and of the head. -/
structure Links (ι : Type*) where
  next : Option ι → Option ι
  prev : Option ι → Option ι

namespace Links

variable {ι : Type*} {n : Nat}

/-- The links lead from `a` through the nodes of the list to `z`, and back. -/
def Path (L : Links ι) : Option ι → List ι → Option ι → Prop
  | a, [], z => L.next a = z ∧ L.prev z = a
  | a, i :: l, z => L.next a = some i ∧ L.prev (some i) = a ∧ Path L (some i) l z

/-- The ring is the list. -/
structure Holds (L : Links ι) (l : List ι) : Prop where
  path : L.Path none l none
  nodup : l.Nodup

/-- The loop that follows links from a node until one meets the test, or until the head. -/
def scan (link : Option ι → Option ι) (p : ι → Bool) : Nat → Option ι → Option ι
  | 0, _ => none
  | _ + 1, none => none
  | n + 1, some i => if p i then some i else scan link p n (link (some i))

section

variable {L L' : Links ι} {a z : Option ι} {l l₁ l₂ : List ι} {i : ι}

theorem path_append : L.Path a (l₁ ++ i :: l₂) z ↔ L.Path a l₁ (some i) ∧ L.Path (some i) l₂ z := by
  induction l₁ generalizing a with
  | nil => exact and_assoc.symm
  | cons j l₁ ih => simp only [List.cons_append, Path, ih, and_assoc]

/-- Only the links along the path matter. -/
theorem Path.congr (h : L.Path a l z) (hn : ∀ x, x = a ∨ (∃ i ∈ l, x = some i) → L'.next x = L.next x)
    (hp : ∀ x, x = z ∨ (∃ i ∈ l, x = some i) → L'.prev x = L.prev x) : L'.Path a l z := by
  induction l generalizing a with
  | nil => exact ⟨(hn a (.inl rfl)).trans h.1, (hp z (.inl rfl)).trans h.2⟩
  | cons i l ih =>
    obtain ⟨h1, h2, h⟩ := h
    refine ⟨(hn a (.inl rfl)).trans h1, (hp _ (.inr ⟨i, List.mem_cons_self, rfl⟩)).trans h2, ih h ?_ ?_⟩
    · rintro x (rfl | ⟨j, hj, rfl⟩)
      · exact hn _ (.inr ⟨i, List.mem_cons_self, rfl⟩)
      · exact hn _ (.inr ⟨j, List.mem_cons_of_mem i hj, rfl⟩)
    · rintro x (rfl | ⟨j, hj, rfl⟩)
      · exact hp _ (.inl rfl)
      · exact hp _ (.inr ⟨j, List.mem_cons_of_mem i hj, rfl⟩)

/-- The node after the start of a path to the head is one of the path, or the head. -/
theorem Path.next_eq {a : Option ι} (h : L.Path a l none) : L.next a = none ∨ ∃ j ∈ l, L.next a = some j := by
  cases l with
  | nil => exact .inl h.1
  | cons j l => exact .inr ⟨j, List.mem_cons_self, h.1⟩

/-- A search along the forward links. -/
theorem Path.scan_next (p : ι → Bool) (h : L.Path a l none) (hn : l.length < n) : scan L.next p n (L.next a) = l.find? p := by
  induction l generalizing a n with
  | nil =>
    obtain ⟨n, rfl⟩ := Nat.exists_eq_succ_of_ne_zero (Nat.ne_of_gt hn)
    rw [h.1, List.find?_nil, scan]
  | cons i l ih =>
    obtain ⟨n, rfl⟩ := Nat.exists_eq_succ_of_ne_zero (Nat.ne_of_gt (Nat.zero_lt_of_lt hn))
    obtain ⟨h1, -, h⟩ := h
    rw [h1, scan, ih h (Nat.lt_of_succ_lt_succ hn)]
    cases hpi : p i with
    | true => rw [if_pos rfl, List.find?_cons_of_pos hpi]
    | false => rw [if_neg Bool.false_ne_true, List.find?_cons_of_neg (by rw [hpi]; exact Bool.false_ne_true)]

/-- A search along the backward links, from the end of a path. -/
theorem Path.scan_prev (p : ι → Bool) (h : L.Path none l z) (hn : l.length < n) : scan L.prev p n (L.prev z) = l.reverse.find? p := by
  induction l using List.reverseRecOn generalizing z n with
  | nil =>
    obtain ⟨n, rfl⟩ := Nat.exists_eq_succ_of_ne_zero (Nat.ne_of_gt hn)
    rw [h.2, List.reverse_nil, List.find?_nil, scan]
  | append_singleton l i ih =>
    rw [List.length_append, List.length_singleton] at hn
    obtain ⟨n, rfl⟩ := Nat.exists_eq_succ_of_ne_zero (Nat.ne_of_gt (Nat.zero_lt_of_lt hn))
    obtain ⟨h, -, h2⟩ := path_append.mp h
    rw [h2, scan, ih h (Nat.lt_of_succ_lt_succ hn), List.reverse_append, List.reverse_singleton, List.singleton_append]
    cases hpi : p i with
    | true => rw [if_pos rfl, List.find?_cons_of_pos hpi]
    | false => rw [if_neg Bool.false_ne_true, List.find?_cons_of_neg (by rw [hpi]; exact Bool.false_ne_true)]

theorem Holds.scan_next (h : L.Holds l) (p : ι → Bool) (hn : l.length < n) :
    scan L.next p n (L.next none) = l.find? p := h.path.scan_next p hn

theorem Holds.scan_prev (h : L.Holds l) (p : ι → Bool) (hn : l.length < n) :
    scan L.prev p n (L.prev none) = l.reverse.find? p := h.path.scan_prev p hn

end

/-! ## Changing the ring -/

/-- The ring without nodes. -/
def empty : Links ι := ⟨fun _ => none, fun _ => none⟩

theorem holds_empty : (empty : Links ι).Holds [] := ⟨⟨rfl, rfl⟩, List.nodup_nil⟩

variable [DecidableEq ι]

/-- `a->next = b`. -/
def setNext (L : Links ι) (a b : Option ι) : Links ι := { L with next := Function.update L.next a b }

/-- `a->prev = b`. -/
def setPrev (L : Links ι) (a b : Option ι) : Links ι := { L with prev := Function.update L.prev a b }

/-- `b->next->prev = b->prev; b->prev->next = b->next`. -/
def unlink (L : Links ι) (i : ι) : Links ι :=
  let L := L.setPrev (L.next (some i)) (L.prev (some i))
  L.setNext (L.prev (some i)) (L.next (some i))

/-- `b->next = head.next; b->prev = &head; head.next->prev = b; head.next = b`. -/
def pushFront (L : Links ι) (i : ι) : Links ι :=
  let L := L.setNext (some i) (L.next none)
  let L := L.setPrev (some i) none
  let L := L.setPrev (L.next none) (some i)
  L.setNext none (some i)

variable {L : Links ι} {l l₁ l₂ : List ι} {i : ι}

@[simp] theorem setNext_next (a b : Option ι) : (L.setNext a b).next = Function.update L.next a b := rfl

@[simp] theorem setNext_prev (a b : Option ι) : (L.setNext a b).prev = L.prev := rfl

@[simp] theorem setPrev_next (a b : Option ι) : (L.setPrev a b).next = L.next := rfl

@[simp] theorem setPrev_prev (a b : Option ι) : (L.setPrev a b).prev = Function.update L.prev a b := rfl

/-- A path from a node becomes one from `a` when the node is passed over. -/
theorem Path.skip {a : Option ι} (h : L.Path (some i) l none) (ha : ∀ j ∈ l, a ≠ some j) (hnd : l.Nodup) :
    ((L.setPrev (L.next (some i)) a).setNext a (L.next (some i))).Path a l none := by
  cases l with
  | nil =>
    obtain ⟨h1, -⟩ := h
    rw [h1]
    simp [Path]
  | cons j l =>
    obtain ⟨h1, -, h⟩ := h
    rw [h1]
    refine ⟨by simp, by simp, h.congr ?_ ?_⟩
    · intro x hx
      refine Function.update_of_ne ?_ _ _
      rcases hx with rfl | ⟨k, hk, rfl⟩
      · exact (ha j List.mem_cons_self).symm
      · exact (ha k (List.mem_cons_of_mem j hk)).symm
    · intro x hx
      refine Function.update_of_ne ?_ _ _
      rcases hx with rfl | ⟨k, hk, rfl⟩
      · exact (Option.some_ne_none j).symm
      · intro hjk
        exact (List.nodup_cons.mp hnd).1 (Option.some.inj hjk ▸ hk)

/-- A node taken out of the ring. -/
theorem Holds.unlink (h : L.Holds (l₁ ++ i :: l₂)) : (L.unlink i).Holds (l₁ ++ l₂) := by
  obtain ⟨hpath, hnd⟩ := h
  obtain ⟨h1, h2⟩ := path_append.mp hpath
  have hparts := List.nodup_append.mp hnd
  have hl₂ : l₂.Nodup := (List.nodup_cons.mp hparts.2.1).2
  refine ⟨?_, hnd.sublist ((List.Sublist.refl l₁).append (List.sublist_cons_self i l₂))⟩
  -- The second statement reads the backward link of the node, which the first has not changed.
  have hprev : ∀ u, L.prev (some i) = u → L.unlink i = (L.setPrev (L.next (some i)) u).setNext u (L.next (some i)) := by
    rintro u rfl
    have hne : some i ≠ L.next (some i) := by
      intro hself
      rcases h2.next_eq with hnone | ⟨j, hj, hnext⟩
      · rw [hnone] at hself
        exact Option.some_ne_none i hself
      · rw [hnext] at hself
        exact (List.nodup_cons.mp hparts.2.1).1 (Option.some.inj hself ▸ hj)
    simp only [Links.unlink, setPrev_prev, setPrev_next, Function.update_of_ne hne]
  rcases List.eq_nil_or_concat l₁ with rfl | ⟨l, x, rfl⟩
  · rw [hprev none h1.2]
    exact h2.skip (fun j _ => (Option.some_ne_none j).symm) hl₂
  · rw [List.concat_eq_append] at *
    obtain ⟨h1, -, hx⟩ := path_append.mp h1
    rw [hprev (some x) hx, List.append_assoc, List.singleton_append]
    have hdisj : ∀ j ∈ l ++ [x], ∀ k ∈ i :: l₂, j ≠ k := hparts.2.2
    have hlx : ∀ j ∈ l, j ≠ x := fun j hj => (List.nodup_append.mp hparts.1).2.2 j hj x (List.mem_singleton_self x)
    have hx₂ : ∀ j ∈ l₂, some x ≠ some j := fun j hj hxj =>
      hdisj x (List.mem_append_right l (List.mem_singleton_self x)) j (List.mem_cons_of_mem i hj) (Option.some.inj hxj)
    refine path_append.mpr ⟨h1.congr ?_ ?_, h2.skip hx₂ hl₂⟩
    · rintro y (rfl | ⟨j, hj, rfl⟩)
      · simp
      · simp [hlx j hj]
    · intro y hy
      have hmem : ∃ j ∈ l ++ [x], y = some j := by
        rcases hy with rfl | ⟨j, hj, rfl⟩
        · exact ⟨x, List.mem_append_right l (List.mem_singleton_self x), rfl⟩
        · exact ⟨j, List.mem_append_left [x] hj, rfl⟩
      obtain ⟨j, hj, rfl⟩ := hmem
      refine Function.update_of_ne ?_ _ _
      rcases h2.next_eq with hnone | ⟨k, hk, hnext⟩
      · rw [hnone]
        exact Option.some_ne_none j
      · rw [hnext]
        exact fun hjk => hdisj j hj k (List.mem_cons_of_mem i hk) (Option.some.inj hjk)

/-- A node put at the front. -/
theorem Holds.pushFront (h : L.Holds l) (hi : i ∉ l) : (L.pushFront i).Holds (i :: l) := by
  obtain ⟨hpath, hnd⟩ := h
  refine ⟨?_, List.nodup_cons.mpr ⟨hi, hnd⟩⟩
  have hne : L.next none ≠ some i := by
    intro hself
    rcases hpath.next_eq with hnone | ⟨j, hj, hnext⟩
    · rw [hnone] at hself
      exact Option.some_ne_none i hself.symm
    · rw [hnext] at hself
      exact hi (Option.some.inj hself ▸ hj)
  have hnone : (none : Option ι) ≠ some i := (Option.some_ne_none i).symm
  cases l with
  | nil =>
    simp [Path, Links.pushFront, hpath.1, hnone]
  | cons j l =>
    obtain ⟨h1, h2, h3⟩ := hpath
    have hji : j ≠ i := fun h => hi (h ▸ List.mem_cons_self)
    refine ⟨by simp [Links.pushFront], ?_, ?_, ?_, h3.congr ?_ ?_⟩
    · simp [Links.pushFront, h1, hji.symm, hnone]
    · simp [Links.pushFront, h1, hnone]
    · simp [Links.pushFront, h1, hnone]
    · rintro x hx
      have hxs : ∃ k ∈ j :: l, x = some k := by
        rcases hx with rfl | ⟨k, hk, rfl⟩
        · exact ⟨j, List.mem_cons_self, rfl⟩
        · exact ⟨k, List.mem_cons_of_mem j hk, rfl⟩
      obtain ⟨k, hk, rfl⟩ := hxs
      have hki : k ≠ i := fun h => hi (h ▸ hk)
      simp [Links.pushFront, hki]
    · rintro x hx
      have hxj : x ≠ some j ∧ x ≠ some i := by
        rcases hx with rfl | ⟨k, hk, rfl⟩
        · exact ⟨(Option.some_ne_none j).symm, hnone⟩
        · refine ⟨fun h => (List.nodup_cons.mp hnd).1 (Option.some.inj h ▸ hk), fun h => hi ?_⟩
          exact List.mem_cons_of_mem j (Option.some.inj h ▸ hk)
      simp [Links.pushFront, h1, hxj.1, hxj.2, hnone]

end Links

end OsLab
