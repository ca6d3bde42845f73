import OsLab.FileTree
import Mathlib.Data.List.Induction
import Mathlib.Algebra.Order.BigOperators.Group.List
import Mathlib.Algebra.Order.Group.Nat

/-!
# Resolution of paths

A path that can be resolved in a tree names the same in every tree that has more nodes (`resolve_mono`), and a path that is continued from a
directory names an entry of it (`resolve_snoc`).
-/

namespace OsLab.Posix.FileTree

variable {t t' t'' : FileTree} {l x cur cwd : Loc} {n c : Name} {cs xs ys : List Name} {k : Nat} {path : Path} {R R' : Loc → Prop}
  {follow follow' : Loc → List Name → Except Nat Loc}

/-! ## Nodes -/

@[simp] theorem kind_root : t.kind [] = some .dir := rfl

theorem ne_nil_of_not_dir (h : t.kind l ≠ some .dir) : l ≠ [] := fun hl => h (hl ▸ kind_root)

/-- One node less. -/
theorem kind_remove {h : t.names l = []} (hl : l ≠ []) : (t.remove l h).kind x = if x = l then none else t.kind x := by
  by_cases hx : x = l
  · subst hx
    rw [if_pos rfl, kind, kindIn, if_neg hl]
    simp [remove]
  · rw [if_neg hx]
    exact kindIn_filter hx

/-- Below nothing there is nothing. -/
theorem kind_append_of_none (h : t.kind l = none) (xs : List Name) : t.kind (l ++ xs) = none := by
  induction xs using List.reverseRecOn with
  | nil => rwa [List.append_nil]
  | append_singleton xs x ih =>
    by_contra hne
    rw [← List.append_assoc] at hne
    have hdir := dir_of_child (Option.isSome_iff_ne_none.mpr hne)
    rw [ih] at hdir
    cases hdir

/-- No node is deeper than this. -/
theorem exists_depth (t : FileTree) : ∃ D, ∀ l, (t.kind l).isSome → l.length ≤ D := by
  refine ⟨(t.nodes.map fun p => p.1.length).sum, fun l hl => ?_⟩
  by_cases hnil : l = []
  · rw [hnil]
    exact Nat.zero_le _
  · obtain ⟨p, hp, rfl⟩ := (kindIn_isSome hnil).mp hl
    exact List.le_sum_of_mem (List.mem_map.mpr ⟨p, hp, rfl⟩)

/-! ## Trees with fewer nodes -/

/-- The nodes of `t'` are nodes of `t`. -/
def Le (t' t : FileTree) : Prop := ∀ l k, t'.kind l = some k → t.kind l = some k

theorem Le.refl (t : FileTree) : Le t t := fun _ _ h => h

theorem Le.trans (h : Le t'' t') (h' : Le t' t) : Le t'' t := fun l k hk => h' l k (h l k hk)

theorem Le.isSome (h : Le t' t) (hl : (t'.kind l).isSome) : (t.kind l).isSome := by
  obtain ⟨k, hk⟩ := Option.isSome_iff_exists.mp hl
  rw [h l k hk]
  rfl

theorem Le.none (h : Le t' t) (hl : t.kind l = none) : t'.kind l = none := by
  cases ht' : t'.kind l with
  | none => rfl
  | some k =>
    rw [h l k ht'] at hl
    cases hl

/-- A smaller tree has no new entries. -/
theorem Le.names (h : Le t' t) (hl : t.names l = []) : t'.names l = [] := by
  refine List.eq_nil_iff_forall_not_mem.mpr fun n hn => ?_
  have hmem := mem_names.mpr (h.isSome (mem_names.mp hn))
  rw [hl] at hmem
  cases hmem

/-- `t'` is `t` without some of the nodes at which `R` holds. -/
structure Pruned (R : Loc → Prop) (t t' : FileTree) : Prop where
  le : Le t' t
  gone : ∀ l, (t.kind l).isSome → t'.kind l = none → R l

theorem Pruned.refl (R : Loc → Prop) (t : FileTree) : Pruned R t t := by
  refine ⟨.refl t, fun l hl hnone => ?_⟩
  rw [hnone] at hl
  cases hl

/-- Removals add up. -/
theorem Pruned.trans (h : Pruned R t t') (h' : Pruned R t' t'') : Pruned R t t'' := by
  refine ⟨h'.le.trans h.le, fun l hl hnone => ?_⟩
  by_cases ht' : t'.kind l = none
  · exact h.gone l hl ht'
  · exact h'.gone l (Option.isSome_iff_ne_none.mpr ht') hnone

theorem Pruned.mono (h : Pruned R t t') (hR : ∀ l, R l → R' l) : Pruned R' t t' := ⟨h.le, fun l hl hnone => hR l (h.gone l hl hnone)⟩

/-- A node outside `R` is as it was. -/
theorem Pruned.kind_eq (h : Pruned R t t') (hl : ¬ R l) : t'.kind l = t.kind l := by
  cases ht' : t'.kind l with
  | some k => exact (h.le l k ht').symm
  | none =>
    by_contra hne
    exact hl (h.gone l (Option.isSome_iff_ne_none.mpr fun h0 => hne h0.symm) ht')

theorem Pruned.remove {h : t.names l = []} (hl : l ≠ []) : Pruned (· = l) t (t.remove l h) := by
  refine ⟨fun x k hk => ?_, fun x hx hnone => ?_⟩
  · rw [kind_remove hl] at hk
    split at hk
    · cases hk
    · exact hk
  · rw [kind_remove hl] at hnone
    split at hnone
    · assumption
    · rw [hnone] at hx
      cases hx

/-- What was below a node that has been removed is not there. -/
theorem kind_below_removed {h : t.names l = []} (hl : l ≠ []) (ht : t' = t.remove l h) (hx : l <+: x) : t'.kind x = none := by
  obtain ⟨xs, rfl⟩ := hx
  refine kind_append_of_none ?_ xs
  rw [ht, kind_remove hl, if_pos rfl]

/-! ## Walks -/

/-- Only a directory is walked through. -/
theorem dir_of_walkFrom (h : t.walkFrom follow cur (c :: cs) = .ok l) : t.kind cur = some .dir := by
  unfold walkFrom at h
  split at h
  · cases h
  · assumption
  · cases h

/-- One component of a walk. -/
theorem walkFrom_dir (h : t.kind cur = some .dir) :
    t.walkFrom follow cur (c :: cs) =
      if c = [] ∨ c = DOT then t.walkFrom follow cur cs
      else if c = DOTDOT then t.walkFrom follow cur.dropLast cs
      else
        match t.kind (cur ++ [c]) with
        | none => .error ENOENT
        | some (.link target) =>
          if cs = [] then .ok (cur ++ [c])
          else if target = [] then .error ENOENT
          else follow (start cur target) (components target ++ cs)
        | some _ => t.walkFrom follow (cur ++ [c]) cs := by
  rw [walkFrom]
  generalize t.kind cur = k at h ⊢
  subst h
  rfl

/-- A walk that succeeds in a smaller tree ends at the same place in the larger one. -/
theorem walkFrom_mono (hle : Le t' t) (hf : ∀ cur cs, follow' cur cs = .ok l → follow cur cs = .ok l)
    (h : t'.walkFrom follow' cur cs = .ok l) : t.walkFrom follow cur cs = .ok l := by
  induction cs generalizing cur with
  | nil => exact h
  | cons c cs ih =>
    have hdir := dir_of_walkFrom h
    rw [walkFrom_dir hdir] at h
    rw [walkFrom_dir (hle _ _ hdir)]
    split
    · rename_i hc
      rw [if_pos hc] at h
      exact ih h
    · rename_i hc
      rw [if_neg hc] at h
      split
      · rename_i hdd
        rw [if_pos hdd] at h
        exact ih h
      · rename_i hdd
        rw [if_neg hdd] at h
        cases hk : t'.kind (cur ++ [c]) with
        | none =>
          rw [hk] at h
          cases h
        | some k =>
          rw [hk] at h
          rw [hle _ _ hk]
          cases k with
          | link target =>
            dsimp only at h ⊢
            split
            · rename_i hcs
              rwa [if_pos hcs] at h
            · rename_i hcs
              rw [if_neg hcs] at h
              split
              · rename_i htgt
                rwa [if_pos htgt] at h
              · rename_i htgt
                rw [if_neg htgt] at h
                exact hf _ _ h
          | file | dir => exact ih h

theorem walk_mono (hle : Le t' t) (h : t'.walk k cur cs = .ok l) : t.walk k cur cs = .ok l := by
  induction k generalizing cur cs with
  | zero => exact walkFrom_mono hle (fun _ _ he => he) h
  | succ k ih => exact walkFrom_mono hle (fun _ _ he => ih he) h

/-- So does the resolution of a path. -/
theorem resolve_mono (hle : Le t' t) (h : t'.resolve cwd path = .ok l) : t.resolve cwd path = .ok l := by
  unfold resolve at h ⊢
  split
  · rename_i hnil
    rwa [if_pos hnil] at h
  · rename_i hnil
    rw [if_neg hnil] at h
    split
    · rename_i hlong
      rwa [if_pos hlong] at h
    · rename_i hlong
      rw [if_neg hlong] at h
      exact walk_mono hle h

/-- A walk to a directory can be continued. -/
theorem walkFrom_append (hys : ys ≠ []) (hdir : t.kind l = some .dir)
    (hf : ∀ cur cs, follow cur cs = .ok l → ∃ k, follow cur (cs ++ ys) = t.walk k l ys)
    (hend : ∃ k, t.walkFrom follow l ys = t.walk k l ys) (h : t.walkFrom follow cur xs = .ok l) :
    ∃ k, t.walkFrom follow cur (xs ++ ys) = t.walk k l ys := by
  induction xs generalizing cur with
  | nil =>
    obtain rfl : cur = l := Except.ok.inj h
    exact hend
  | cons c cs ih =>
    have hcur := dir_of_walkFrom h
    rw [walkFrom_dir hcur] at h
    rw [List.cons_append, walkFrom_dir hcur]
    split
    · rename_i hc
      rw [if_pos hc] at h
      exact ih h
    · rename_i hc
      rw [if_neg hc] at h
      split
      · rename_i hdd
        rw [if_pos hdd] at h
        exact ih h
      · rename_i hdd
        rw [if_neg hdd] at h
        cases hk : t.kind (cur ++ [c]) with
        | none =>
          rw [hk] at h
          cases h
        | some k =>
          rw [hk] at h
          cases k with
          | link target =>
            dsimp only at h ⊢
            by_cases hcs : cs = []
            · -- a link at the end is not a directory
              rw [if_pos hcs] at h
              obtain rfl : cur ++ [c] = l := Except.ok.inj h
              rw [hdir] at hk
              cases hk
            · rw [if_neg hcs] at h
              rw [if_neg (List.append_ne_nil_of_right_ne_nil _ hys)]
              split
              · rename_i htgt
                rw [if_pos htgt] at h
                cases h
              · rename_i htgt
                rw [if_neg htgt] at h
                rw [← List.append_assoc]
                exact hf _ _ h
          | file | dir => exact ih h

/-- A walk goes on from where its first part ends. -/
theorem walk_append (hys : ys ≠ []) (hdir : t.kind l = some .dir) (h : t.walk k cur xs = .ok l) :
    ∃ j, t.walk k cur (xs ++ ys) = t.walk j l ys := by
  induction k generalizing cur xs with
  | zero => exact walkFrom_append hys hdir (fun _ _ he => nomatch he) ⟨0, rfl⟩ h
  | succ k ih => exact walkFrom_append hys hdir (fun _ _ he => ih he) ⟨k + 1, rfl⟩ h

/-- What one more component leads to. -/
def step (t : FileTree) (l : Loc) (n : Name) : Except Nat Loc :=
  if n = [] ∨ n = DOT then .ok l
  else if n = DOTDOT then .ok l.dropLast
  else if (t.kind (l ++ [n])).isSome then .ok (l ++ [n])
  else .error ENOENT

theorem walkFrom_singleton (hdir : t.kind l = some .dir) : t.walkFrom follow l [n] = t.step l n := by
  rw [walkFrom_dir hdir, step]
  simp only [walkFrom]
  split
  · rfl
  · split
    · rfl
    · cases t.kind (l ++ [n]) with
      | none => rfl
      | some k => cases k <;> rfl

theorem walk_singleton (hdir : t.kind l = some .dir) : t.walk k l [n] = t.step l n := by
  cases k <;> exact walkFrom_singleton hdir

/-- A path that names a directory, with one more component. -/
theorem resolve_snoc (h : t.resolve cwd path = .ok l) (hdir : t.kind l = some .dir) (hn : SLASH ∉ n)
    (hlen : (path ++ SLASH :: n).length < PATH_MAX) : t.resolve cwd (path ++ SLASH :: n) = t.step l n := by
  unfold resolve at h ⊢
  split at h
  · cases h
  · rename_i hnil
    split at h
    · cases h
    · obtain ⟨b, bs, rfl⟩ := List.exists_cons_of_ne_nil hnil
      have hcomp : components (b :: bs ++ SLASH :: n) = components (b :: bs) ++ [n] := by
        have hlast : n.splitOnP (· == SLASH) = [n] :=
          List.splitOnP_eq_singleton fun y hy => by simpa using fun hs : y = SLASH => hn (hs ▸ hy)
        unfold components
        rw [List.splitOnP_append_cons _ _ (by simp), hlast]
      rw [if_neg (List.append_ne_nil_of_left_ne_nil hnil _), if_neg (Nat.not_le.mpr hlen), hcomp]
      obtain ⟨j, hj⟩ := walk_append (List.cons_ne_nil n []) hdir h
      exact hj.trans (walk_singleton hdir)

/-- An entry of the directory. -/
theorem step_child (h : n ∈ t.names l) : t.step l n = .ok (l ++ [n]) := by
  have hsome := mem_names.mp h
  obtain ⟨hne, -, -, hdot, hdd⟩ := valid_of_child hsome
  rw [step, if_neg (not_or.mpr ⟨hne, hdot⟩), if_neg hdd, if_pos hsome]

/-- One more component leads to an entry, to the directory itself or to its parent. -/
theorem step_cases (h : t.step l n = .ok x) : (x = l ++ [n]) ∨ x = l ∨ x = l.dropLast := by
  unfold step at h
  split at h
  · exact .inr (.inl (Except.ok.inj h).symm)
  · split at h
    · exact .inr (.inr (Except.ok.inj h).symm)
    · split at h
      · exact .inl (Except.ok.inj h).symm
      · cases h

end OsLab.Posix.FileTree
