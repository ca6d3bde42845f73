import OsLab.Lemmas.Rm

/-!
# What custom_rm -r removes

The path of an entry is cut to 2047 bytes. A path of that length is its own child, so that a call on it removes what it names or nothing
(`cut_wp`), and a shorter path leads to entries of its directory, to the directory or to its parent; of these the last two are not empty
(`fits_wp`). Only a target of more than 2047 bytes can lead outside: its entries are looked for under its first 2047 bytes
(`rm_subtree_iff`).
-/

namespace OsLab.Rm

open Cmd
open Posix FileTree

/-- `l` is what the path names, or below it. -/
def Inside (p : Proc) (t : FileTree) (path : Path) (l : Loc) : Prop := ∃ d, t.resolve p.cwd path = .ok d ∧ d <+: l

/-- What a call with this path can remove at once. -/
structure Removable (t : FileTree) (path : Path) (l : Loc) : Prop where
  exists_kind : (t.kind l).isSome
  dir : t.kind l = some .dir → l ≠ [] ∧ t.names l = [] ∧ lastName path ≠ some DOT

/-- The target is a directory with entries, and the first 2047 bytes of its path name something outside of it that can be removed. -/
def Stray (p : Proc) (t : FileTree) (target : Path) : Prop :=
  2048 ≤ target.length ∧ ∃ d l, t.resolve p.cwd target = .ok d ∧ t.names d ≠ [] ∧ t.resolve p.cwd (target.take 2047) = .ok l ∧
    Removable t (target.take 2047) l ∧ ¬ d <+: l

/-- Whatever the calls answer, and also in a run that does not end: what `remove_recursive` removes is the target or below it; and when it
returns 0 nothing of that is left. -/
def RemovesSubtree (p : Proc) (t : FileTree) (target : Path) : Prop :=
  ∀ answers depth,
    wp (removeRecursive p depth target)
      (fun v s => (∀ l, (t.kind l).isSome → s.tree.kind l = none → Inside p t target l) ∧
        (v = 0 → ∀ l, Inside p t target l → s.tree.kind l = none))
      (fun s => ∀ l, (t.kind l).isSome → s.tree.kind l = none → Inside p t target l) ⟨t, answers, [], []⟩

namespace RmAux

variable {p : Proc} {s : RmSt} {t t' : FileTree} {path : Path} {d l x : Loc} {n : Name} {m : Nat} {R : Loc → Prop}

/-! ## The paths of the entries -/

/-- The path of an entry of a short path: the name is cut. -/
theorem child_of_short (h : path.length ≤ 2046) (n : Name) : child path n = path ++ SLASH :: n.take (2046 - path.length) := by
  obtain ⟨j, hj⟩ : ∃ j, 2047 - path.length = j + 1 := ⟨2046 - path.length, by omega⟩
  rw [child, List.take_append, List.take_of_length_le (by omega), hj, List.take_succ_cons, show 2046 - path.length = j by omega]

/-- The path of an entry of a long path: the path is cut, and the name is lost. -/
theorem child_of_long (h : 2047 ≤ path.length) (n : Name) : child path n = path.take 2047 := List.take_append_of_le_length h

/-- In a tree with fewer nodes than `t`, the path of an entry names an entry of the directory, the directory or its parent. -/
theorem resolve_child (hle : Le t' t) (hd : t.resolve p.cwd path = .ok d) (hdir : t.kind d = some .dir) (hshort : path.length ≤ 2046)
    (hn : n ∈ t.names d) (h : t'.resolve p.cwd (child path n) = .ok x) : t.step d (n.take (2046 - path.length)) = .ok x := by
  have hx := resolve_mono hle h
  rw [child_of_short hshort] at hx
  have hslash : SLASH ∉ n.take (2046 - path.length) := fun hmem =>
    (valid_of_child (mem_names.mp hn)).2.1 (List.mem_of_mem_take hmem)
  have hlen : (path ++ SLASH :: n.take (2046 - path.length)).length < PATH_MAX := by
    rw [List.length_append, List.length_cons, List.length_take]
    unfold PATH_MAX
    omega
  rwa [resolve_snoc hd hdir hslash hlen] at hx

/-! ## A path of 2047 bytes -/

/-- What is removed is what the path names, if it can be removed. -/
def Hits (p : Proc) (t : FileTree) (path : Path) (l : Loc) : Prop := t.resolve p.cwd path = .ok l ∧ Removable t path l

theorem Pruned.removed {h : t.names l = []} (hl : l ≠ []) (hR : R l) (ht : t' = t.remove l h) : Pruned R t t' := by
  rw [ht]
  exact (Pruned.remove hl).mono fun _ hx => hx ▸ hR

/-- With nothing removed a directory has the entries it had. -/
theorem names_of_pruned (h : Pruned (fun _ => False) t t') (hempty : t'.names l = []) : t.names l = [] := by
  refine List.eq_nil_iff_forall_not_mem.mpr fun n hn => ?_
  have hn' : n ∈ t'.names l := by
    rw [mem_names, h.kind_eq not_false]
    exact mem_names.mp hn
  rw [hempty] at hn'
  cases hn'

/-- A path of 2047 bytes is the path of its entries: while there is one, nothing is removed. -/
theorem cut_wp (hlen : path.length = 2047) (m : Nat) (s : RmSt) :
    wp (removeRecursive p m path) (fun _ s' => Pruned (Hits p s.tree path) s.tree s'.tree)
      (fun s' => Pruned (Hits p s.tree path) s.tree s'.tree) s := by
  induction m generalizing s with
  | zero => exact Pruned.refl _ _
  | succ m ih =>
    refine removeRecursive_wp (J := fun _ s' => Pruned (fun _ => False) s.tree s'.tree) ?_ ?_ ?_ ?_ ?_
    · intro s' htree _
      rw [htree]
      exact Pruned.refl _ _
    · intro l s' h hl hdir hsome htree _
      exact Pruned.removed (ne_nil_of_not_dir hdir) ⟨hl, hsome, fun hd => absurd hd hdir⟩ htree
    · intro d s' hd hdir htree _
      refine removeEntries_wp (fun _ hJ => hJ) (fun name hname hdot hdd s1 hJ => ?_) 0 (htree ▸ Pruned.refl _ _)
      have hmem : name ∈ s.tree.names d := by simpa [hdot, hdd] using hname
      have hchild : child path name = path := by rw [child_of_long (Nat.le_of_eq hlen.symm), List.take_of_length_le (Nat.le_of_eq hlen)]
      have hnot : ∀ l, ¬ Hits p s1.tree path l := by
        rintro l ⟨hl, -, hremovable⟩
        obtain rfl : d = l := Except.ok.inj (hd.symm.trans (resolve_mono hJ.le hl))
        have hempty := names_of_pruned hJ (hremovable ((hJ.kind_eq not_false).trans hdir)).2.1
        rw [hempty] at hmem
        cases hmem
      rw [hchild]
      refine wp_mono (ih _) (fun _ s2 h2 => ?_) fun s2 h2 => ?_
      · exact hJ.trans (h2.mono hnot)
      · exact (hJ.trans (h2.mono hnot)).mono fun _ => False.elim
    · intro d s1 s' hJ htree _
      rw [htree]
      exact hJ.mono fun _ => False.elim
    · intro d rc l s1 s' h hd hJ hl hdir hdot hroot htree _
      refine (hJ.mono fun _ => False.elim).trans (Pruned.removed hroot ⟨resolve_mono hJ.le hl, ?_, fun _ => ?_⟩ htree)
      · rw [← hJ.kind_eq not_false, hdir]
        rfl
      · exact ⟨hroot, names_of_pruned hJ h, hdot⟩

/-! ## A shorter path -/

/-- What may be removed in a directory before its own turn: what is below it, but no entry with a name that is cut. -/
structure Entry (d : Loc) (room : Nat) (l : Loc) : Prop where
  below : d <+: l
  ne : l ≠ d
  short : ∀ n : Name, room < n.length → l ≠ d ++ [n]

theorem entry_of_child {room : Nat} (hn : n.length ≤ room) (h : d ++ [n] <+: l) : Entry d room l := by
  refine ⟨(List.prefix_append d [n]).trans h, fun heq => ?_, fun n' hlong heq => ?_⟩
  · have hlen := h.length_le
    rw [heq, List.length_append, List.length_singleton] at hlen
    omega
  · rw [heq] at h
    have hsame : d ++ [n] = d ++ [n'] := h.eq_of_length (by rw [List.length_append, List.length_append]; rfl)
    have hnn : [n] = [n'] := List.append_cancel_left hsame
    rw [(List.cons.inj hnn).1] at hn
    omega

/-- The directory and its parent are not empty while an entry with a long name is there. -/
theorem not_removable {room : Nat} (hJ : Pruned (Entry d room) t t') (hn : n ∈ t.names d) (hlong : room < n.length)
    (hx : x = d ∨ x = d.dropLast) : ¬ Removable t' path x := by
  have hentry : (t'.kind (d ++ [n])).isSome := by
    rw [hJ.kind_eq fun h => h.short n hlong rfl]
    exact mem_names.mp hn
  have hdir := dir_of_child hentry
  rintro ⟨-, hremovable⟩
  rcases hx with rfl | rfl
  · have hempty := (hremovable hdir).2.1
    rw [← mem_names, hempty] at hentry
    cases hentry
  · cases d using List.reverseRecOn with
    | nil => exact (hremovable kind_root).1 rfl
    | append_singleton d y =>
      rw [List.dropLast_concat] at hremovable
      have hy : (t'.kind (d ++ [y])).isSome := hdir ▸ rfl
      have hempty := (hremovable (dir_of_child hy)).2.1
      rw [← mem_names, hempty] at hy
      cases hy

/-- A call on a path that fits removes what it names, or below it. -/
theorem fits_wp (m : Nat) (hlen : path.length ≤ 2047) (s : RmSt) :
    wp (removeRecursive p m path) (fun _ s' => Pruned (Inside p s.tree path) s.tree s'.tree)
      (fun s' => Pruned (Inside p s.tree path) s.tree s'.tree) s := by
  induction m generalizing path s with
  | zero => exact Pruned.refl _ _
  | succ m ih =>
    by_cases hfull : path.length = 2047
    · have hits : ∀ l, Hits p s.tree path l → Inside p s.tree path l := fun l hl => ⟨l, hl.1, List.prefix_refl l⟩
      exact wp_mono (cut_wp hfull (m + 1) s) (fun _ _ h => h.mono hits) fun _ h => h.mono hits
    have hshort : path.length ≤ 2046 := by omega
    refine removeRecursive_wp (J := fun d s' => Pruned (Entry d (2046 - path.length)) s.tree s'.tree ∧ s.tree.resolve p.cwd path = .ok d)
      ?_ ?_ ?_ ?_ ?_
    · intro s' htree _
      rw [htree]
      exact Pruned.refl _ _
    · intro l s' h hl hdir _ htree _
      exact Pruned.removed (ne_nil_of_not_dir hdir) ⟨l, hl, List.prefix_refl l⟩ htree
    · intro d s' hd hdir htree _
      refine removeEntries_wp (fun _ hJ => hJ) (fun name hname hdot hdd s1 hJ => ?_) 0 ⟨htree ▸ Pruned.refl _ _, hd⟩
      have hmem : name ∈ s.tree.names d := by simpa [hdot, hdd] using hname
      -- what this call removes, it removes below the directory
      have hregion : ∀ R : Loc → Prop, (∀ l, R l → Entry d (2046 - path.length) l) →
          wp (removeRecursive p m (child path name)) (fun _ s' => Pruned R s1.tree s'.tree) (fun s' => Pruned R s1.tree s'.tree)
            { s1 with calls := s1.calls ++ [(path, child path name)] } →
          wp (removeRecursive p m (child path name))
            (fun _ s' => Pruned (Entry d (2046 - path.length)) s.tree s'.tree ∧ s.tree.resolve p.cwd path = .ok d)
            (fun s' => Pruned (Inside p s.tree path) s.tree s'.tree) { s1 with calls := s1.calls ++ [(path, child path name)] } := by
        intro R hR hwp
        refine wp_mono hwp (fun _ s2 h2 => ⟨hJ.1.trans (h2.mono hR), hd⟩) fun s2 h2 => ?_
        exact (hJ.1.trans (h2.mono hR)).mono fun l hl => ⟨d, hd, hl.below⟩
      by_cases hfits : name.length ≤ 2046 - path.length
      · have hchild : (child path name).length ≤ 2047 := List.length_take_le _ _
        refine hregion _ (fun l hl => ?_) (ih hchild _)
        obtain ⟨y, hy, hbelow⟩ := hl
        have hstep := resolve_child hJ.1.le hd hdir hshort hmem hy
        rw [List.take_of_length_le hfits, step_child hmem] at hstep
        obtain rfl := Except.ok.inj hstep
        exact entry_of_child hfits hbelow
      · have hcut : (child path name).length = 2047 := by
          rw [child_of_short hshort, List.length_append, List.length_cons, List.length_take]
          omega
        refine hregion _ (fun l hl => ?_) (cut_wp hcut m _)
        obtain ⟨hy, hremovable⟩ := hl
        rcases step_cases (resolve_child hJ.1.le hd hdir hshort hmem hy) with rfl | hparent
        · exact entry_of_child (by rw [List.length_take]; omega) (List.prefix_refl _)
        · exact absurd hremovable (not_removable hJ.1 hmem (by omega) hparent)
    · intro d s1 s' hJ htree _
      rw [htree]
      exact hJ.1.mono fun l hl => ⟨d, hJ.2, hl.below⟩
    · intro d rc l s1 s' h hd hJ hl hdir hdot hroot htree _
      obtain rfl : d = l := Except.ok.inj (hd.symm.trans (resolve_mono hJ.1.le hl))
      have hbelow : ∀ l, Entry d (2046 - path.length) l → Inside p s.tree path l := fun l hl => ⟨d, hd, hl.below⟩
      exact (hJ.1.mono hbelow).trans (Pruned.removed hroot ⟨d, hd, List.prefix_refl d⟩ htree)

/-! ## A status of 0 -/

/-- When the call returns 0, the last thing that it did was to remove what the path names. -/
theorem zero_wp (m : Nat) (s : RmSt) :
    wp (removeRecursive p m path) (fun v s' => v = 0 → ∀ l, Inside p s.tree path l → s'.tree.kind l = none) (fun _ => True) s := by
  cases m with
  | zero => trivial
  | succ m =>
    refine removeRecursive_wp (J := fun _ s' => Le s'.tree s.tree) ?_ ?_ ?_ ?_ ?_
    · intro s' _ _ hv
      cases hv
    · rintro l s' h hl hdir _ htree _ - x ⟨y, hy, hbelow⟩
      obtain rfl : l = y := Except.ok.inj (hl.symm.trans hy)
      exact kind_below_removed (ne_nil_of_not_dir hdir) htree hbelow
    · intro d s' _ _ htree _
      refine removeEntries_wp (fun _ hJ => hJ) (fun name _ _ _ s1 hJ => ?_) 0 (htree ▸ .refl _)
      exact wp_mono (removeRecursive_le p m _ _) (fun _ _ h2 => h2.trans hJ) fun _ _ => trivial
    · intro d s1 s' _ _ _ hv
      cases hv
    · rintro d rc l s1 s' h hd hJ hl _ _ hroot htree _ - x ⟨y, hy, hbelow⟩
      obtain rfl : l = y := Except.ok.inj ((resolve_mono hJ hl).symm.trans hy)
      exact kind_below_removed hroot htree hbelow

/-! ## A longer path -/

/-- While what the cut path names is there, nothing has been removed. -/
theorem hits_of_pruned {path' : Path} (hJ : Pruned (fun l => Hits p t path' l ∧ d <+: l) t t') (h : Hits p t' path' l) :
    Hits p t path' l := by
  obtain ⟨hl, hsome, hremovable⟩ := h
  have hl' := resolve_mono hJ.le hl
  refine ⟨hl', hJ.le.isSome hsome, fun hdir => ?_⟩
  obtain ⟨k, hk⟩ := Option.isSome_iff_exists.mp hsome
  obtain rfl : k = .dir := Option.some.inj ((hJ.le l k hk).symm.trans hdir)
  obtain ⟨hroot, hempty, hdot⟩ := hremovable hk
  refine ⟨hroot, List.eq_nil_iff_forall_not_mem.mpr fun n hn => ?_, hdot⟩
  have hn' : n ∈ t'.names l := by
    rw [mem_names, hJ.kind_eq]
    · exact mem_names.mp hn
    · rintro ⟨⟨hentry, -⟩, -⟩
      have hlen := congrArg List.length (Except.ok.inj (hl'.symm.trans hentry))
      rw [List.length_append, List.length_singleton] at hlen
      omega
  rw [hempty] at hn'
  cases hn'

/-- A call on a longer path removes what its first 2047 bytes name, and the directory. -/
theorem long_wp (m : Nat) (hlen : 2048 ≤ path.length) (hstray : ¬ Stray p s.tree path) :
    wp (removeRecursive p m path) (fun _ s' => Pruned (Inside p s.tree path) s.tree s'.tree)
      (fun s' => Pruned (Inside p s.tree path) s.tree s'.tree) s := by
  cases m with
  | zero => exact Pruned.refl _ _
  | succ m =>
    refine removeRecursive_wp (J := fun d s' => Pruned (fun l => Hits p s.tree (path.take 2047) l ∧ d <+: l) s.tree s'.tree ∧
      s.tree.resolve p.cwd path = .ok d) ?_ ?_ ?_ ?_ ?_
    · intro s' htree _
      rw [htree]
      exact Pruned.refl _ _
    · intro l s' h hl hdir _ htree _
      exact Pruned.removed (ne_nil_of_not_dir hdir) ⟨l, hl, List.prefix_refl l⟩ htree
    · intro d s' hd hdir htree _
      refine removeEntries_wp (fun _ hJ => hJ) (fun name hname hdot hdd s1 hJ => ?_) 0 ⟨htree ▸ Pruned.refl _ _, hd⟩
      have hmem : name ∈ s.tree.names d := by simpa [hdot, hdd] using hname
      have hcut : (path.take 2047).length = 2047 := by
        rw [List.length_take]
        omega
      have hhits : ∀ l, Hits p s1.tree (path.take 2047) l → Hits p s.tree (path.take 2047) l ∧ d <+: l := by
        intro l hl
        have hl' := hits_of_pruned hJ.1 hl
        refine ⟨hl', ?_⟩
        by_contra hout
        exact hstray ⟨hlen, d, l, hd, List.ne_nil_of_mem hmem, hl'.1, hl'.2, hout⟩
      rw [child_of_long (by omega)]
      refine wp_mono (cut_wp hcut m _) (fun _ s2 h2 => ⟨hJ.1.trans (h2.mono hhits), hd⟩) fun s2 h2 => ?_
      exact (hJ.1.trans (h2.mono hhits)).mono fun l hl => ⟨d, hd, hl.2⟩
    · intro d s1 s' hJ htree _
      rw [htree]
      exact hJ.1.mono fun l hl => ⟨d, hJ.2, hl.2⟩
    · intro d rc l s1 s' h hd hJ hl hdir hdot hroot htree _
      obtain rfl : d = l := Except.ok.inj (hd.symm.trans (resolve_mono hJ.1.le hl))
      exact (hJ.1.mono fun l hl => ⟨d, hd, hl.2⟩).trans (Pruned.removed hroot ⟨d, hd, List.prefix_refl d⟩ htree)

/-! ## A stray removal -/

/-- When no call fails, what can be removed is removed. -/
theorem hit_wp (hs : Willing s) (h : Hits p s.tree path l) :
    wp (removeRecursive p 1 path) (fun _ s' => s'.tree.kind l = none) (fun _ => False) s := by
  obtain ⟨hl, hsome, hremovable⟩ := h
  obtain ⟨k, hk⟩ := Option.isSome_iff_exists.mp hsome
  unfold removeRecursive
  rw [wp_bind, wp_lstat]
  refine ⟨fun e he => hs.elim he, fun _ => ?_⟩
  rw [hl]
  dsimp only
  rw [hk]
  dsimp only
  rw [wp_ite]
  refine ⟨fun hnotdir => ?_, fun hdir => ?_⟩
  · have hne : s.tree.kind l ≠ some .dir := fun h => hnotdir (Option.some.inj (hk.symm.trans h))
    rw [wp_bind, wp_unlink]
    refine ⟨fun e he => (hs.popped _).elim he, fun _ => ?_⟩
    rw [popped_tree, hl]
    dsimp only
    rw [dif_neg hne]
    exact kind_below_removed (h := names_of_ne_dir hne) (ne_nil_of_not_dir hne) rfl (List.prefix_refl l)
  · obtain rfl : k = .dir := not_not.mp hdir
    obtain ⟨hroot, hempty, hdot⟩ := hremovable hk
    rw [wp_bind, wp_opendir]
    refine ⟨fun e he => (hs.popped _).elim he, fun _ => ?_⟩
    rw [popped_tree, hl]
    dsimp only
    rw [if_pos hk, hempty, wp_bind, removeEntries_dots, removeEntries, wp_pure, wp_bind, wp_rmdir]
    refine ⟨fun e he => ((hs.popped _).popped _).elim he, fun _ => ?_⟩
    rw [popped_tree, popped_tree, hl]
    dsimp only
    rw [if_neg (not_not.mpr hk), if_neg hdot, if_neg hroot, dif_pos hempty]
    exact kind_below_removed (h := hempty) hroot rfl (List.prefix_refl l)

/-- With the first entry of the target the stray node has gone, and it does not come back. -/
theorem stray_wp (hs : Willing s) (hlen : 2048 ≤ path.length) (hd : s.tree.resolve p.cwd path = .ok d) (hne : s.tree.names d ≠ [])
    (hl : Hits p s.tree (path.take 2047) l) :
    wp (removeRecursive p 2 path) (fun _ s' => s'.tree.kind l = none) (fun s' => s'.tree.kind l = none) s := by
  obtain ⟨n, ns, hns⟩ := List.exists_cons_of_ne_nil hne
  refine removeRecursive_first (R := fun _ s' => s'.tree.kind l = none) (J := fun s' => s'.tree.kind l = none) hs hd hns ?_ ?_ ?_
  · rw [child_of_long (by omega)]
    exact wp_mono (hit_wp ((hs.popped _).popped _) hl) (fun _ _ h => h) fun _ => False.elim
  · refine fun r s1 h1 => removeEntries_wp (fun _ hJ => hJ) (fun name _ _ _ s2 h2 => ?_) _ h1
    exact wp_mono (removeRecursive_le p 1 _ _) (fun _ _ hle => hle.none h2) fun _ hle => hle.none h2
  · exact fun v s2 s3 h2 hle => hle.none h2

end RmAux

open RmAux

/-- For every tree, working directory and target: whatever the calls answer and however long the run is, only the target and what
is below it
is removed, and a status of 0 means that nothing of it is left, if and only if the target is not one that strays. -/
theorem rm_subtree_iff (p : Proc) (t : FileTree) (target : Path) : RemovesSubtree p t target ↔ ¬ Stray p t target := by
  constructor
  · rintro hall ⟨hlen, d, l, hd, hne, hl, hremovable, hout⟩
    have hgone := stray_wp (p := p) (s := ⟨t, fun _ _ => none, [], []⟩) (fun _ _ => rfl) hlen hd hne ⟨hl, hremovable⟩
    have hinside : ¬ Inside p t target l := fun ⟨y, hy, hbelow⟩ => hout (Except.ok.inj (hd.symm.trans hy) ▸ hbelow)
    rcases exists_or_of_wp (wp_inter (hall _ 2) hgone) with ⟨v, s', h, hnone⟩ | ⟨s', h, hnone⟩
    · exact hinside (h.1 l hremovable.exists_kind hnone)
    · exact hinside (h l hremovable.exists_kind hnone)
  · intro hstray answers depth
    have hpruned : wp (removeRecursive p depth target) (fun _ s' => Pruned (Inside p t target) t s'.tree)
        (fun s' => Pruned (Inside p t target) t s'.tree) ⟨t, answers, [], []⟩ := by
      rcases Nat.lt_or_ge 2047 target.length with hlong | hshort
      · exact long_wp depth hlong hstray
      · exact fits_wp depth hshort _
    exact wp_mono (wp_inter hpruned (zero_wp depth _)) (fun v s' h => ⟨h.1.gone, h.2⟩) fun s' h => h.1.gone

/-- A tree with the file "a", the directory "ab" and the file "ab/x". -/
def strayTree : FileTree where
  nodes := [([[97]], .file), ([[97, 98]], .dir), ([[97, 98], [120]], .file)]
  rooted := by decide
  named := by decide
  closed := by decide

/-- The directory "ab", by a path of 2048 bytes: 1023 times "./", and "ab". -/
def strayTarget : Path := (List.replicate 1023 [46, 47]).flatten ++ [97, 98]

/-- `custom_rm -r` of "ab" removes the file "a" next to it. -/
theorem rm_strays :
    strayTree.resolve [] strayTarget = .ok [[97, 98]] ∧
      ∃ s', removeRecursive ⟨[], fun _ => []⟩ 3 strayTarget ⟨strayTree, fun _ _ => none, [], []⟩ = .ok (1, s') ∧
        s'.tree.kind [[97]] = none ∧ s'.tree.kind [[97, 98]] = some .dir := by
  refine ⟨by decide +kernel, ?_⟩
  have hrun : ∃ v s', removeRecursive ⟨[], fun _ => []⟩ 3 strayTarget ⟨strayTree, fun _ _ => none, [], []⟩ = .ok (v, s') ∧
      (v = 1 ∧ s'.tree.kind [[97]] = none ∧ s'.tree.kind [[97, 98]] = some .dir) := exists_of_wp (by decide +kernel)
  obtain ⟨v, s', hs', rfl, hgone⟩ := hrun
  exact ⟨s', hs', hgone⟩

end OsLab.Rm
