import OsLab.Rm
import OsLab.Lemmas.FileTree

/-!
# The rules of custom_rm

What each call comes to, a rule for the loop over the entries (`removeEntries_wp`) and one for `remove_recursive` as a whole
(`removeRecursive_wp`): it fails, removes a file, or goes through a directory and removes it in the end.
-/

namespace OsLab.Rm

open Cmd
open Posix FileTree

variable {p : Proc} {s : RmSt} {E : RmSt → Prop} {c : RmCall} {path : Path} {d l : Loc} {k : Kind}

/-- The state with an answer taken. -/
def RmSt.popped (s : RmSt) (c : RmCall) : RmSt := { s with answers := Function.update s.answers c fun n => s.answers c (n + 1) }

@[simp] theorem popped_tree : (s.popped c).tree = s.tree := rfl

/-- No call fails for a reason of its own. -/
def Willing (s : RmSt) : Prop := ∀ c n, s.answers c n = none

theorem Willing.popped (h : Willing s) (c : RmCall) : Willing (s.popped c) := by
  intro c' n
  by_cases hc : c' = c
  · subst hc
    simpa [RmSt.popped] using h c' (n + 1)
  · simpa [RmSt.popped, hc] using h c' n

theorem Willing.elim {e : Nat} {P : Prop} (h : Willing s) (he : s.answers c 0 = some e) : P := absurd he (by rw [h]; nofun)

/-! ## The calls -/

@[simp] theorem wp_ask {Q : Option Nat → RmSt → Prop} : wp (ask c) Q E s ↔ Q (s.answers c 0) (s.popped c) := Iff.rfl

/-- A call fails by its answer, or goes on. -/
theorem wp_call {α : Type} {go : Act (Except Nat α)} {Q : Except Nat α → RmSt → Prop} :
    wp (call c go) Q E s ↔
      (∀ e, s.answers c 0 = some e → Q (.error e) (s.popped c)) ∧ (s.answers c 0 = none → wp go Q E (s.popped c)) := by
  unfold call
  rw [wp_bind, wp_ask]
  cases s.answers c 0 <;> simp

theorem wp_lstat {Q : Except Nat Kind → RmSt → Prop} :
    wp (lstat p path) Q E s ↔
      (∀ e, s.answers .lstat 0 = some e → Q (.error e) (s.popped .lstat)) ∧
        (s.answers .lstat 0 = none →
          match s.tree.resolve p.cwd path with
          | .error e => Q (.error e) (s.popped .lstat)
          | .ok l =>
            match s.tree.kind l with
            | none => Q (.error ENOENT) (s.popped .lstat)
            | some k => Q (.ok k) (s.popped .lstat)) := by
  unfold lstat
  rw [wp_call]
  refine and_congr Iff.rfl (imp_congr_right fun _ => ?_)
  rw [wp_bind, wp_get]
  dsimp only [popped_tree]
  cases s.tree.resolve p.cwd path with
  | error e => rfl
  | ok l =>
    dsimp only
    cases s.tree.kind l <;> rfl

theorem wp_opendir {Q : Except Nat (Loc × List Name) → RmSt → Prop} :
    wp (opendir p path) Q E s ↔
      (∀ e, s.answers .opendir 0 = some e → Q (.error e) (s.popped .opendir)) ∧
        (s.answers .opendir 0 = none →
          match s.tree.resolve p.cwd path with
          | .error e => Q (.error e) (s.popped .opendir)
          | .ok l =>
            if s.tree.kind l = some .dir then Q (.ok (l, DOT :: DOTDOT :: s.tree.names l)) (s.popped .opendir)
            else Q (.error ENOTDIR) (s.popped .opendir)) := by
  unfold opendir
  rw [wp_call]
  refine and_congr Iff.rfl (imp_congr_right fun _ => ?_)
  rw [wp_bind, wp_get]
  dsimp only [popped_tree]
  cases s.tree.resolve p.cwd path with
  | error e => rfl
  | ok l =>
    dsimp only
    split <;> rfl

/-- What `readdir` returns. -/
theorem wp_readdir {name : Name} {Q : Bool → RmSt → Prop} :
    wp (readdir d name) Q E s ↔
      if name = DOT ∨ name = DOTDOT ∨ (s.tree.kind (d ++ [name])).isSome then Q true s
      else Q (s.answers .readdir 0).isNone (s.popped .readdir) := by
  unfold readdir
  rw [wp_bind, wp_get]
  split <;> rfl

theorem wp_unlink {Q : Except Nat Unit → RmSt → Prop} :
    wp (unlink p path) Q E s ↔
      (∀ e, s.answers .unlink 0 = some e → Q (.error e) (s.popped .unlink)) ∧
        (s.answers .unlink 0 = none →
          match s.tree.resolve p.cwd path with
          | .error e => Q (.error e) (s.popped .unlink)
          | .ok l =>
            if h : s.tree.kind l = some .dir then Q (.error EISDIR) (s.popped .unlink)
            else Q (.ok ()) { s.popped .unlink with tree := s.tree.remove l (names_of_ne_dir h) }) := by
  unfold unlink
  rw [wp_call]
  refine and_congr Iff.rfl (imp_congr_right fun _ => ?_)
  rw [show s.tree = (s.popped .unlink).tree from rfl]
  generalize s.popped .unlink = s
  rw [wp_bind, wp_get]
  cases s.tree.resolve p.cwd path with
  | error e => rfl
  | ok l =>
    dsimp only
    by_cases h : s.tree.kind l = some .dir
    · rw [dif_pos h, dif_pos h]
      rfl
    · rw [dif_neg h, dif_neg h]
      rfl

theorem wp_rmdir {Q : Except Nat Unit → RmSt → Prop} :
    wp (rmdir p path) Q E s ↔
      (∀ e, s.answers .rmdir 0 = some e → Q (.error e) (s.popped .rmdir)) ∧
        (s.answers .rmdir 0 = none →
          match s.tree.resolve p.cwd path with
          | .error e => Q (.error e) (s.popped .rmdir)
          | .ok l =>
            if s.tree.kind l ≠ some .dir then Q (.error ENOTDIR) (s.popped .rmdir)
            else if lastName path = some DOT then Q (.error EINVAL) (s.popped .rmdir)
            else if l = [] then Q (.error EBUSY) (s.popped .rmdir)
            else if h : s.tree.names l = [] then Q (.ok ()) { s.popped .rmdir with tree := s.tree.remove l h }
            else Q (.error ENOTEMPTY) (s.popped .rmdir)) := by
  unfold rmdir
  rw [wp_call]
  refine and_congr Iff.rfl (imp_congr_right fun _ => ?_)
  rw [show s.tree = (s.popped .rmdir).tree from rfl]
  generalize s.popped .rmdir = s
  rw [wp_bind, wp_get]
  cases s.tree.resolve p.cwd path with
  | error e => rfl
  | ok l =>
    dsimp only
    by_cases hdir : s.tree.kind l ≠ some .dir
    · rw [if_pos hdir, if_pos hdir]
      rfl
    · rw [if_neg hdir, if_neg hdir]
      by_cases hdot : lastName path = some DOT
      · rw [if_pos hdot, if_pos hdot]
        rfl
      · rw [if_neg hdot, if_neg hdot]
        by_cases hroot : l = []
        · rw [if_pos hroot, if_pos hroot]
          rfl
        · rw [if_neg hroot, if_neg hroot]
          by_cases hempty : s.tree.names l = []
          · rw [dif_pos hempty, dif_pos hempty]
            rfl
          · rw [dif_neg hempty, dif_neg hempty]
            rfl

/-! ## The program -/

/-- The rule of the loop, for what each call keeps. -/
theorem removeEntries_wp {J : RmSt → Prop} {remove : Path → Act Nat} {names : List Name} (hpop : ∀ s, J s → J (s.popped .readdir))
    (hcall : ∀ name ∈ names, name ≠ DOT → name ≠ DOTDOT → ∀ s, J s →
      wp (remove (child path name)) (fun _ => J) E { s with calls := s.calls ++ [(path, child path name)] })
    (rc : Nat) (h : J s) : wp (removeEntries remove path d names rc) (fun _ => J) E s := by
  induction names generalizing s rc with
  | nil => exact h
  | cons name names ih =>
    have htail := fun n hn => hcall n (List.mem_cons_of_mem _ hn)
    have hreturned : ∀ s, J s → wp (do
        if name = DOT ∨ name = DOTDOT then removeEntries remove path d names rc
        else
          modify fun s => { s with calls := s.calls ++ [(path, child path name)] }
          let r ← remove (child path name)
          removeEntries remove path d names (rc ||| r)) (fun _ => J) E s := by
      intro s h
      rw [wp_ite]
      refine ⟨fun _ => ih htail rc h, fun hdots => ?_⟩
      rw [wp_bind, wp_modify]
      obtain ⟨hdot, hdd⟩ := not_or.mp hdots
      exact Cmd.wp_call (hcall name List.mem_cons_self hdot hdd s h) fun r s1 h1 => ih htail _ h1
    unfold removeEntries
    rw [wp_bind, wp_readdir]
    split
    · exact hreturned s h
    · cases (s.answers .readdir 0).isNone with
      | true => exact hreturned _ (hpop s h)
      | false => exact ih htail rc (hpop s h)

/-- The entries "." and ".." are passed over. -/
theorem removeEntries_dots {remove : Path → Act Nat} {names : List Name} {rc : Nat} {Q : Nat → RmSt → Prop} :
    wp (removeEntries remove path d (DOT :: DOTDOT :: names) rc) Q E s ↔ wp (removeEntries remove path d names rc) Q E s := by
  rw [removeEntries, wp_bind, wp_readdir, if_pos (.inl rfl), if_pos rfl, if_pos (.inl rfl), removeEntries, wp_bind, wp_readdir,
    if_pos (.inr (.inl rfl)), if_pos rfl, if_pos (.inr rfl)]

/-- The rule of `remove_recursive`. `J` is what the loop over the entries of a directory comes to. -/
theorem removeRecursive_wp {n : Nat} {J : Loc → RmSt → Prop} {Q : Nat → RmSt → Prop}
    (hfail : ∀ s', s'.tree = s.tree → s'.calls = s.calls → Q 1 s')
    (hfile : ∀ l s' h, s.tree.resolve p.cwd path = .ok l → s.tree.kind l ≠ some .dir → (s.tree.kind l).isSome →
      s'.tree = s.tree.remove l h → s'.calls = s.calls → Q 0 s')
    (hloop : ∀ d s', s.tree.resolve p.cwd path = .ok d → s.tree.kind d = some .dir → s'.tree = s.tree → s'.calls = s.calls →
      wp (removeEntries (removeRecursive p n) path d (DOT :: DOTDOT :: s.tree.names d) 0) (fun _ => J d) E s')
    (hkept : ∀ d s1 s', J d s1 → s'.tree = s1.tree → s'.calls = s1.calls → Q 1 s')
    (hrmdir : ∀ d rc l s1 s' h, s.tree.resolve p.cwd path = .ok d → J d s1 → s1.tree.resolve p.cwd path = .ok l →
      s1.tree.kind l = some .dir → lastName path ≠ some DOT → l ≠ [] → s'.tree = s1.tree.remove l h →
      s'.calls = s1.calls → Q rc s') :
    wp (removeRecursive p (n + 1) path) Q E s := by
  unfold removeRecursive
  rw [wp_bind, wp_lstat]
  refine ⟨fun e _ => hfail _ rfl rfl, fun _ => ?_⟩
  split
  · exact hfail _ rfl rfl
  rename_i l hl
  split
  · exact hfail _ rfl rfl
  rename_i k hk
  dsimp only
  rw [wp_ite]
  refine ⟨fun hnotdir => ?_, fun _ => ?_⟩
  · rw [wp_bind, wp_unlink]
    refine ⟨fun e _ => hfail _ rfl rfl, fun _ => ?_⟩
    rw [popped_tree, hl]
    dsimp only
    have hne : s.tree.kind l ≠ some .dir := fun h => hnotdir (Option.some.inj (hk.symm.trans h))
    rw [dif_neg hne]
    exact hfile l _ (names_of_ne_dir hne) hl hne (hk ▸ rfl) rfl rfl
  · rw [wp_bind, wp_opendir]
    refine ⟨fun e _ => hfail _ rfl rfl, fun _ => ?_⟩
    split
    · exact hfail _ rfl rfl
    rename_i d hd
    split
    · rename_i hdir
      refine Cmd.wp_call (hloop d _ hd hdir rfl rfl) fun rc s1 h1 => ?_
      rw [wp_bind, wp_rmdir]
      refine ⟨fun e _ => hkept d s1 _ h1 rfl rfl, fun _ => ?_⟩
      split
      · exact hkept d s1 _ h1 rfl rfl
      rename_i l hl
      split
      · exact hkept d s1 _ h1 rfl rfl
      rename_i hldir
      split
      · exact hkept d s1 _ h1 rfl rfl
      rename_i hdot
      split
      · exact hkept d s1 _ h1 rfl rfl
      rename_i hroot
      split
      · rename_i hempty
        exact hrmdir d rc l s1 _ hempty hd h1 hl (not_not.mp hldir) hdot hroot rfl rfl
      · exact hkept d s1 _ h1 rfl rfl
    · exact hfail _ rfl rfl

/-- Whatever happens, nothing is added to the tree. -/
theorem removeRecursive_le (p : Proc) (n : Nat) (path : Path) (s : RmSt) :
    wp (removeRecursive p n path) (fun _ s' => Le s'.tree s.tree) (fun s' => Le s'.tree s.tree) s := by
  induction n generalizing path s with
  | zero => exact .refl _
  | succ n ih =>
    refine removeRecursive_wp (J := fun _ s' => Le s'.tree s.tree) ?_ ?_ ?_ ?_ ?_
    · intro s' htree _
      rw [htree]
      exact .refl _
    · intro l s' h _ hdir _ htree _
      rw [htree]
      exact (Pruned.remove (ne_nil_of_not_dir hdir)).le
    · intro d s' _ _ htree _
      refine removeEntries_wp (fun _ hJ => hJ) (fun name _ _ _ s1 hJ => ?_) 0 (htree ▸ .refl _)
      exact wp_mono (ih _ _) (fun _ _ h2 => h2.trans hJ) fun _ h2 => h2.trans hJ
    · intro d s1 s' hJ htree _
      rwa [htree]
    · intro d rc l s1 s' h _ hJ _ _ _ hroot htree _
      rw [htree]
      exact (Pruned.remove hroot).le.trans hJ

/-- A removal adds nothing to the tree. -/
theorem rmdir_le (p : Proc) (path : Path) (s : RmSt) : wp (rmdir p path) (fun _ s' => Le s'.tree s.tree) E s := by
  rw [wp_rmdir]
  refine ⟨fun e _ => .refl _, fun _ => ?_⟩
  split
  · exact .refl _
  · split
    · exact .refl _
    · split
      · exact .refl _
      · split
        · exact .refl _
        · rename_i hroot
          split
          · rename_i hempty
            exact (Pruned.remove (h := hempty) hroot).le
          · exact .refl _

/-- When no call fails, a call on a directory goes into its first entry. -/
theorem removeRecursive_first {m : Nat} {n : Name} {ns : List Name} {R Q : Nat → RmSt → Prop} {J : RmSt → Prop} (hs : Willing s)
    (hd : s.tree.resolve p.cwd path = .ok d) (hns : s.tree.names d = n :: ns)
    (hcall : wp (removeRecursive p m (child path n)) R E
      { (s.popped .lstat).popped .opendir with calls := s.calls ++ [(path, child path n)] })
    (hloop : ∀ r s1, R r s1 → wp (removeEntries (removeRecursive p m) path d ns (0 ||| r)) (fun _ => J) E s1)
    (hend : ∀ v s2 s3, J s2 → Le s3.tree s2.tree → Q v s3) : wp (removeRecursive p (m + 1) path) Q E s := by
  have hn : (s.tree.kind (d ++ [n])).isSome := mem_names.mp (hns ▸ List.mem_cons_self)
  have hdir := dir_of_child hn
  obtain ⟨-, -, -, hdot, hdd⟩ := valid_of_child hn
  rw [removeRecursive, wp_bind, wp_lstat]
  refine ⟨fun e he => hs.elim he, fun _ => ?_⟩
  rw [hd]
  dsimp only
  rw [hdir]
  dsimp only
  rw [if_neg (not_not.mpr rfl), wp_bind, wp_opendir]
  refine ⟨fun e he => (hs.popped _).elim he, fun _ => ?_⟩
  rw [popped_tree, hd]
  dsimp only
  rw [if_pos hdir, hns, wp_bind, removeEntries_dots, removeEntries, wp_bind, wp_readdir, if_pos (.inr (.inr hn)), if_pos rfl,
    if_neg (not_or.mpr ⟨hdot, hdd⟩), wp_bind, wp_modify]
  refine Cmd.wp_call hcall fun r s1 h1 => ?_
  refine wp_mono (hloop r s1 h1) (fun rc s2 h2 => ?_) fun _ h => h
  refine Cmd.wp_call (rmdir_le p path s2) fun r s3 h3 => ?_
  cases r with
  | error e | ok _ => exact hend _ _ _ h2 h3

end OsLab.Rm
