import OsLab.Theorems.Rm

/-!
# The recursion of custom_rm -r

As long as the paths that are spelled from the target down fit into `child`, a recursive call is on an entry of the caller's
directory, and the
recursion is as deep as the tree. A path that is cut may name the directory itself: then the call is its own caller, and does not end.
`rm_descends_iff` says which cuts do no harm.
-/

namespace OsLab.Rm

open Cmd
open Posix FileTree

/-- The second path of a call names nothing in the tree, or something strictly below what the first one names. -/
def Deeper (p : Proc) (t : FileTree) (call : Path × Path) : Prop :=
  ∀ l, t.resolve p.cwd call.2 = .ok l → ∃ d, t.resolve p.cwd call.1 = .ok d ∧ d <+: l ∧ d ≠ l

/-- Whatever the calls answer: the run ends, and each recursive call in it is on something deeper. -/
def Descends (p : Proc) (t : FileTree) (target : Path) : Prop :=
  ∀ answers, ∃ depth,
    wp (removeRecursive p depth target) (fun _ s => ∀ call ∈ s.calls, Deeper p t call) (fun _ => False) ⟨t, answers, [], []⟩

/-- The path from the target down along the names. -/
def spell (target : Path) (ns : List Name) : Path := target ++ ns.flatMap (SLASH :: ·)

/-- Where the path of an entry is the first that does not fit, its first 2047 bytes name nothing, or something strictly below the directory
of the entry that is not a directory with entries. -/
def CutsHarmless (p : Proc) (t : FileTree) (target : Path) : Prop :=
  ∀ d ns n l, t.resolve p.cwd target = .ok d → n ∈ t.names (d ++ ns) → (ns = [] ∨ (spell target ns).length ≤ 2047) →
    2047 < (spell target (ns ++ [n])).length → t.resolve p.cwd ((spell target (ns ++ [n])).take 2047) = .ok l →
      d ++ ns <+: l ∧ d ++ ns ≠ l ∧ t.names l = []

namespace RmAux

variable {p : Proc} {s : RmSt} {t : FileTree} {target path : Path} {d l : Loc} {n : Name} {ns : List Name} {m D : Nat} {x : Path × Path}

/-! ## Spelled paths -/

theorem spell_snoc (target : Path) (ns : List Name) (n : Name) : spell target (ns ++ [n]) = spell target ns ++ SLASH :: n := by
  unfold spell
  rw [List.flatMap_append, List.append_assoc]
  simp

theorem child_spell (target : Path) (ns : List Name) (n : Name) : child (spell target ns) n = (spell target (ns ++ [n])).take 2047 := by
  rw [child, spell_snoc]

theorem child_spell_of_le (h : (spell target (ns ++ [n])).length ≤ 2047) : child (spell target ns) n = spell target (ns ++ [n]) := by
  rw [child_spell, List.take_of_length_le h]

theorem length_spell_le (target : Path) (ns : List Name) (n : Name) : (spell target ns).length ≤ (spell target (ns ++ [n])).length := by
  rw [spell_snoc, List.length_append]
  exact Nat.le_add_right _ _

/-- A path that fits leads to where it is spelled to. -/
theorem resolve_spell (hd : t.resolve p.cwd target = .ok d) (hsome : (t.kind (d ++ ns)).isSome)
    (hfits : ns = [] ∨ (spell target ns).length ≤ 2047) : t.resolve p.cwd (spell target ns) = .ok (d ++ ns) := by
  induction ns using List.reverseRecOn with
  | nil =>
    rw [List.append_nil]
    have hnil : spell target [] = target := List.append_nil target
    rwa [hnil]
  | append_singleton ns n ih =>
    have hlen : (spell target (ns ++ [n])).length ≤ 2047 := hfits.resolve_left (snoc_ne_nil ns n)
    rw [← List.append_assoc] at hsome ⊢
    have hdir := dir_of_child hsome
    have hup := ih (hdir ▸ rfl) (.inr (Nat.le_trans (length_spell_le target ns n) hlen))
    rw [spell_snoc] at hlen ⊢
    have hmax : (spell target ns ++ SLASH :: n).length < PATH_MAX := by
      unfold PATH_MAX
      omega
    rw [resolve_snoc hup hdir (valid_of_child hsome).2.1 hmax, step_child (mem_names.mpr hsome)]

/-! ## Runs that end -/

/-- A call on nothing, on a file or on an empty directory ends at once. -/
theorem childless_wp (hle : Le s.tree t) (h : ∀ l, t.resolve p.cwd path = .ok l → t.names l = []) :
    wp (removeRecursive p (m + 1) path) (fun _ s' => Le s'.tree s.tree ∧ s'.calls = s.calls) (fun _ => False) s := by
  refine removeRecursive_wp (J := fun _ s' => Le s'.tree s.tree ∧ s'.calls = s.calls) ?_ ?_ ?_ ?_ ?_
  · intro s' htree hcalls
    exact ⟨htree ▸ .refl _, hcalls⟩
  · intro l s' h _ hdir _ htree hcalls
    exact ⟨htree ▸ (Pruned.remove (ne_nil_of_not_dir hdir)).le, hcalls⟩
  · intro d s' hd _ htree hcalls
    rw [removeEntries_dots, hle.names (h d (resolve_mono hle hd))]
    exact ⟨htree ▸ .refl _, hcalls⟩
  · intro d s1 s' hJ htree hcalls
    exact ⟨htree ▸ hJ.1, hcalls.trans hJ.2⟩
  · intro d rc l s1 s' h _ hJ _ _ _ hroot htree hcalls
    exact ⟨htree ▸ (Pruned.remove hroot).le.trans hJ.1, hcalls.trans hJ.2⟩

/-- With no harmful cut the recursion goes down the tree. -/
theorem descend_wp (hcuts : CutsHarmless p t target) (hd : t.resolve p.cwd target = .ok d) (hD : ∀ l, (t.kind l).isSome → l.length ≤ D)
    (hle : Le s.tree t) (hsome : (t.kind (d ++ ns)).isSome) (hfits : ns = [] ∨ (spell target ns).length ≤ 2047)
    (hm : D + 2 ≤ m + (d ++ ns).length) (hcalls : ∀ call ∈ s.calls, Deeper p t call) :
    wp (removeRecursive p m (spell target ns)) (fun _ s' => Le s'.tree t ∧ ∀ call ∈ s'.calls, Deeper p t call) (fun _ => False) s := by
  induction m generalizing ns s with
  | zero =>
    have := hD _ hsome
    omega
  | succ m ih =>
    have hpath := resolve_spell hd hsome hfits
    refine removeRecursive_wp (J := fun _ s' => Le s'.tree t ∧ ∀ call ∈ s'.calls, Deeper p t call) ?_ ?_ ?_ ?_ ?_
    · intro s' htree hc
      exact ⟨htree ▸ hle, hc ▸ hcalls⟩
    · intro l s' h _ hdir _ htree hc
      exact ⟨htree ▸ (Pruned.remove (ne_nil_of_not_dir hdir)).le.trans hle, hc ▸ hcalls⟩
    · intro d' s' hd' _ htree hc
      obtain rfl : d ++ ns = d' := Except.ok.inj (hpath.symm.trans (resolve_mono hle hd'))
      refine removeEntries_wp (fun _ hJ => hJ) (fun name hname hdot hdd s1 hJ => ?_) 0 ⟨htree ▸ hle, hc ▸ hcalls⟩
      have hmem : name ∈ t.names (d ++ ns) := by
        have hname' : name ∈ s.tree.names (d ++ ns) := by simpa [hdot, hdd] using hname
        exact mem_names.mpr (hle.isSome (mem_names.mp hname'))
      -- the call is recorded: it has to be deeper
      have hpush : Deeper p t (spell target ns, child (spell target ns) name) →
          ∀ call ∈ s1.calls ++ [(spell target ns, child (spell target ns) name)], Deeper p t call := by
        intro hdeep call hcall
        rcases List.mem_append.mp hcall with hcall | hcall
        · exact hJ.2 call hcall
        · exact List.mem_singleton.mp hcall ▸ hdeep
      have hdepth := hD _ hsome
      by_cases hlen : (spell target (ns ++ [name])).length ≤ 2047
      · have hentry : (t.kind (d ++ (ns ++ [name]))).isSome := by
          rw [← List.append_assoc]
          exact mem_names.mp hmem
        have hdown := resolve_spell hd hentry (.inr hlen)
        rw [child_spell_of_le hlen] at hpush ⊢
        refine ih hJ.1 hentry (.inr hlen) ?_ (hpush fun l hl => ?_)
        · rw [← List.append_assoc, List.length_append, List.length_singleton]
          omega
        · obtain rfl := Except.ok.inj (hdown.symm.trans hl)
          exact ⟨d ++ ns, hpath, ⟨[name], List.append_assoc ..⟩, fun heq => by simpa using congrArg List.length heq⟩
      · have hcut : ∀ l, t.resolve p.cwd (child (spell target ns) name) = .ok l → d ++ ns <+: l ∧ d ++ ns ≠ l ∧ t.names l = [] := by
          intro l hl
          rw [child_spell] at hl
          exact hcuts d ns name l hd hmem hfits (Nat.lt_of_not_le hlen) hl
        obtain ⟨m, rfl⟩ : ∃ j, m = j + 1 := ⟨m - 1, by omega⟩
        refine wp_mono (childless_wp (t := t) hJ.1 fun l hl => (hcut l hl).2.2) (fun _ s2 h2 => ?_) fun _ he => he
        refine ⟨h2.1.trans hJ.1, h2.2 ▸ hpush fun l hl => ?_⟩
        exact ⟨d ++ ns, hpath, (hcut l hl).1, (hcut l hl).2.1⟩
    · intro d' s1 s' hJ htree hc
      exact ⟨htree ▸ hJ.1, hc ▸ hJ.2⟩
    · intro d' rc l s1 s' h _ hJ _ _ _ hroot htree hc
      exact ⟨htree ▸ (Pruned.remove hroot).le.trans hJ.1, hc ▸ hJ.2⟩

/-! ## Runs in which nothing can be removed -/

/-- Everything can be read, and nothing can be removed. -/
structure ReadOnly (s : RmSt) : Prop where
  lstat : ∀ n, s.answers .lstat n = none
  opendir : ∀ n, s.answers .opendir n = none
  unlink : ∀ n, (s.answers .unlink n).isSome
  rmdir : ∀ n, (s.answers .rmdir n).isSome

theorem ReadOnly.popped (h : ReadOnly s) (c : RmCall) : ReadOnly (s.popped c) := by
  obtain ⟨h1, h2, h3, h4⟩ := h
  cases c <;> constructor <;> intro n <;> simp only [RmSt.popped, Function.update] <;> simp [h1, h2, h3, h4]

theorem ReadOnly.of_answers {s' : RmSt} (h : ReadOnly s) (hans : s'.answers = s.answers) : ReadOnly s' := by
  obtain ⟨h1, h2, h3, h4⟩ := h
  exact ⟨by rwa [hans], by rwa [hans], by rwa [hans], by rwa [hans]⟩

/-- The calls that the tree leads to from a path. -/
inductive Reaches (p : Proc) (t : FileTree) : Path → Path × Path → Prop where
  | call {path : Path} {d : Loc} {n : Name} : t.resolve p.cwd path = .ok d → n ∈ t.names d → Reaches p t path (path, child path n)
  | deeper {path : Path} {d : Loc} {n : Name} {x : Path × Path} : t.resolve p.cwd path = .ok d → n ∈ t.names d →
      Reaches p t (child path n) x → Reaches p t path x

theorem Reaches.cases_names (h : Reaches p t path x) :
    ∃ d, t.resolve p.cwd path = .ok d ∧ ∃ n ∈ t.names d, x = (path, child path n) ∨ Reaches p t (child path n) x := by
  cases h with
  | call hd hn => exact ⟨_, hd, _, hn, .inl rfl⟩
  | deeper hd hn h => exact ⟨_, hd, _, hn, .inr h⟩

/-- The state after a run in which nothing was removed and these calls were made. -/
structure Logged (s s' : RmSt) (made : Path × Path → Prop) : Prop where
  readOnly : ReadOnly s'
  tree : s'.tree = s.tree
  kept : ∀ x ∈ s.calls, x ∈ s'.calls
  made : ∀ x, made x → x ∈ s'.calls

theorem removeEntries_logged {remove : Path → Act Nat} (path : Path) {names : List Name} (hs : ReadOnly s)
    (hnames : ∀ n ∈ names, n ∈ s.tree.names d)
    (hcall : ∀ (n : Name) (s1 : RmSt), ReadOnly s1 → s1.tree = s.tree →
      wp (remove (child path n)) (fun _ s' => Logged s1 s' (Reaches p s.tree (child path n))) (fun _ => True) s1) (rc : Nat) :
    wp (removeEntries remove path d names rc)
      (fun _ s' => Logged s s' fun x => ∃ n ∈ names, x = (path, child path n) ∨ Reaches p s.tree (child path n) x) (fun _ => True) s := by
  induction names generalizing s rc with
  | nil => exact ⟨hs, rfl, fun _ hx => hx, fun x ⟨n, hn, _⟩ => absurd hn List.not_mem_nil⟩
  | cons name names ih =>
    have hsome := mem_names.mp (hnames name List.mem_cons_self)
    obtain ⟨-, -, -, hdot, hdd⟩ := valid_of_child hsome
    rw [removeEntries, wp_bind, wp_readdir, if_pos (.inr (.inr hsome)), if_pos rfl, if_neg (not_or.mpr ⟨hdot, hdd⟩), wp_bind,
      wp_modify]
    have hpushed : ReadOnly { s with calls := s.calls ++ [(path, child path name)] } := hs.of_answers rfl
    refine Cmd.wp_call (hcall name _ hpushed rfl) fun r s1 h1 => ?_
    have htree : s1.tree = s.tree := h1.tree
    have hrest := ih h1.readOnly (fun n hn => htree ▸ hnames n (List.mem_cons_of_mem _ hn)) (by rw [htree]; exact hcall) (rc ||| r)
    refine wp_mono hrest (fun _ s2 h2 => ?_) fun _ he => he
    refine ⟨h2.readOnly, h2.tree.trans htree, fun x hx => h2.kept x (h1.kept x (List.mem_append_left _ hx)), fun x hx => ?_⟩
    obtain ⟨n, hn, hx⟩ := hx
    rcases List.mem_cons.mp hn with rfl | hn
    · rcases hx with rfl | hx
      · exact h2.kept _ (h1.kept _ (List.mem_append_right _ (List.mem_singleton.mpr rfl)))
      · exact h2.kept x (h1.made x hx)
    · exact h2.made x ⟨n, hn, by rwa [htree]⟩

/-- Such a run makes all the calls that the tree leads to. -/
theorem removeRecursive_logged (m : Nat) (path : Path) (s : RmSt) (hs : ReadOnly s) :
    wp (removeRecursive p m path) (fun _ s' => Logged s s' (Reaches p s.tree path)) (fun _ => True) s := by
  induction m generalizing path s with
  | zero => trivial
  | succ m ih =>
    -- without entries there is nothing to reach
    have hnone : ∀ s', s'.answers = (s.popped .lstat).answers ∨ s'.answers = ((s.popped .lstat).popped .unlink).answers → s'.tree = s.tree →
        s'.calls = s.calls → (∀ d, s.tree.resolve p.cwd path = .ok d → s.tree.names d = []) → Logged s s' (Reaches p s.tree path) := by
      intro s' hans htree hcalls hempty
      have hread : ReadOnly s' := by
        rcases hans with hans | hans
        · exact (hs.popped _).of_answers hans
        · exact ((hs.popped _).popped _).of_answers hans
      refine ⟨hread, htree, fun x hx => hcalls ▸ hx, fun x hx => ?_⟩
      obtain ⟨d, hd, n, hn, -⟩ := hx.cases_names
      rw [hempty d hd] at hn
      cases hn
    rw [removeRecursive, wp_bind, wp_lstat]
    refine ⟨fun e he => absurd he (by rw [hs.lstat]; intro he; cases he), fun _ => ?_⟩
    cases hl : s.tree.resolve p.cwd path with
    | error e =>
      refine hnone _ (.inl rfl) rfl rfl fun d hd => ?_
      rw [hl] at hd
      cases hd
    | ok l =>
      have hhere : ∀ d, s.tree.resolve p.cwd path = .ok d → d = l := fun d hd => Except.ok.inj (hd.symm.trans hl)
      dsimp only
      cases hk : s.tree.kind l with
      | none => exact hnone _ (.inl rfl) rfl rfl fun d hd => hhere d hd ▸ names_of_ne_dir (by rw [hk]; intro he; cases he)
      | some k =>
        dsimp only
        rw [wp_ite]
        refine ⟨fun hnotdir => ?_, fun hdir => ?_⟩
        · have hne : s.tree.kind l ≠ some .dir := fun h => hnotdir (Option.some.inj (hk.symm.trans h))
          rw [wp_bind, wp_unlink]
          refine ⟨fun e _ => hnone _ (.inr rfl) rfl rfl fun d hd => hhere d hd ▸ names_of_ne_dir hne, fun hans => ?_⟩
          have hsome := (hs.popped .lstat).unlink 0
          rw [hans] at hsome
          cases hsome
        · obtain rfl : k = .dir := not_not.mp hdir
          rw [wp_bind, wp_opendir]
          refine ⟨fun e he => absurd he (by rw [(hs.popped _).opendir]; intro he; cases he), fun _ => ?_⟩
          rw [popped_tree, hl]
          dsimp only
          rw [if_pos hk, wp_bind, removeEntries_dots]
          have hloop := removeEntries_logged (d := l) (p := p) path ((hs.popped .lstat).popped .opendir) (fun n hn => hn)
            (fun n s1 h1 htree => htree ▸ ih (child path n) s1 h1) 0
          refine wp_mono hloop (fun rc s1 h1 => ?_) fun _ he => he
          rw [wp_bind, wp_rmdir]
          refine ⟨fun e _ => ?_, fun hans => ?_⟩
          · refine ⟨(h1.readOnly.popped .rmdir).of_answers rfl, h1.tree, h1.kept, fun x hx => ?_⟩
            obtain ⟨d, hd, n, hn, hx⟩ := hx.cases_names
            exact h1.made x ⟨n, hhere d hd ▸ hn, hx⟩
          · have hsome := h1.readOnly.rmdir 0
            rw [hans] at hsome
            cases hsome

/-- So when the runs descend, every call that the tree leads to is deeper. -/
theorem deeper_of_descends (h : Descends p t target) (hx : Reaches p t target x) : Deeper p t x := by
  obtain ⟨depth, hrun⟩ := h fun c _ => if c = .unlink ∨ c = .rmdir then some 30 else none
  have hread : ReadOnly ⟨t, fun c _ => if c = .unlink ∨ c = .rmdir then some 30 else none, [], []⟩ :=
    ⟨fun _ => rfl, fun _ => rfl, fun _ => rfl, fun _ => rfl⟩
  obtain ⟨v, s', -, hdeep, hlogged⟩ := exists_of_wp (wp_mono (wp_inter hrun (removeRecursive_logged depth target _ hread))
    (fun _ _ h => h) fun _ h => h.1)
  exact hdeep x (hlogged.made x hx)

theorem reaches_spell (hd : t.resolve p.cwd target = .ok d) (hsome : (t.kind (d ++ ns)).isSome)
    (hfits : ns = [] ∨ (spell target ns).length ≤ 2047) (hx : Reaches p t (spell target ns) x) : Reaches p t target x := by
  induction ns using List.reverseRecOn with
  | nil =>
    have hnil : spell target [] = target := List.append_nil target
    rwa [hnil] at hx
  | append_singleton ns n ih =>
    have hlen : (spell target (ns ++ [n])).length ≤ 2047 := hfits.resolve_left (snoc_ne_nil ns n)
    have hfits' : ns = [] ∨ (spell target ns).length ≤ 2047 := .inr (Nat.le_trans (length_spell_le target ns n) hlen)
    rw [← List.append_assoc] at hsome
    have hdir : (t.kind (d ++ ns)).isSome := dir_of_child hsome ▸ rfl
    refine ih hdir hfits' (.deeper (resolve_spell hd hdir hfits') (mem_names.mpr hsome) ?_)
    rwa [child_spell_of_le hlen]

/-! ## Runs that do not end -/

/-- A path of 2047 bytes that names a directory with entries is called again and again. -/
theorem endless_wp (hs : Willing s) (hlen : path.length = 2047) (hd : s.tree.resolve p.cwd path = .ok d) (hne : s.tree.names d ≠ [])
    (m : Nat) :
    wp (removeRecursive p m path) (fun _ _ => False) (fun _ => True) s := by
  obtain ⟨n, ns, hns⟩ := List.exists_cons_of_ne_nil hne
  induction m generalizing s with
  | zero => trivial
  | succ m ih =>
    refine removeRecursive_first (R := fun _ _ => False) (J := fun _ => False) hs hd hns ?_ (fun _ _ => False.elim) fun _ _ _ => False.elim
    rw [child_of_long (Nat.le_of_eq hlen.symm), List.take_of_length_le (Nat.le_of_eq hlen)]
    exact ih ((hs.popped _).popped _) hd hne hns

/-- So is a call that gets to such a path with its first entry. -/
theorem endless_of_first (hs : Willing s) (hd : s.tree.resolve p.cwd path = .ok d) (hn : (s.tree.names d).head? = some n)
    (hlen : (child path n).length = 2047) (hl : s.tree.resolve p.cwd (child path n) = .ok l) (hne : s.tree.names l ≠ []) (m : Nat) :
    wp (removeRecursive p m path) (fun _ _ => False) (fun _ => True) s := by
  obtain ⟨ns, hns⟩ := List.head?_eq_some_iff.mp hn
  cases m with
  | zero => trivial
  | succ m =>
    refine removeRecursive_first (R := fun _ _ => False) (J := fun _ => False) hs hd hns ?_ (fun _ _ => False.elim) fun _ _ _ => False.elim
    have hs' : Willing { (s.popped .lstat).popped .opendir with calls := s.calls ++ [(path, child path n)] } := (hs.popped _).popped _
    exact endless_wp hs' hlen hl hne m

end RmAux

open RmAux

/-- For every tree, working directory and target: whatever the calls answer, the run ends and each recursive call is on something strictly
deeper than its caller's path names, if and only if the paths that are cut do no harm. -/
theorem rm_descends_iff (p : Proc) (t : FileTree) (target : Path) : Descends p t target ↔ CutsHarmless p t target := by
  constructor
  · intro h d ns n l hd hn hfits hlong hl
    have hsome : (t.kind (d ++ ns)).isSome := dir_of_child (mem_names.mp hn) ▸ rfl
    have hpath := resolve_spell hd hsome hfits
    rw [← child_spell] at hl
    obtain ⟨d', hd', hbelow, hne⟩ := deeper_of_descends h (reaches_spell hd hsome hfits (.call hpath hn)) l hl
    obtain rfl : d ++ ns = d' := Except.ok.inj (hpath.symm.trans hd')
    refine ⟨hbelow, hne, List.eq_nil_iff_forall_not_mem.mpr fun m hm => ?_⟩
    -- the path of 2047 bytes is the path of the entries of what it names
    have hself : child (child (spell target ns) n) m = child (spell target ns) n := by
      have hlen : (child (spell target ns) n).length = 2047 := by
        rw [child_spell, List.length_take]
        omega
      rw [child_of_long (Nat.le_of_eq hlen.symm), List.take_of_length_le (Nat.le_of_eq hlen)]
    have hloop : Reaches p t target (child (spell target ns) n, child (spell target ns) n) := by
      refine reaches_spell hd hsome hfits (.deeper hpath hn ?_)
      have hcall : Reaches p t (child (spell target ns) n) (_, child (child (spell target ns) n) m) := .call hl hm
      rwa [hself] at hcall
    obtain ⟨y, hy, -, hyne⟩ := deeper_of_descends h hloop l hl
    exact hyne (Except.ok.inj (hy.symm.trans hl))
  · intro hcuts answers
    have hnoCalls : ∀ call ∈ ([] : List (Path × Path)), Deeper p t call := fun call hcall => absurd hcall List.not_mem_nil
    by_cases hempty : ∀ l, t.resolve p.cwd target = .ok l → t.names l = []
    · refine ⟨1, wp_mono (childless_wp (t := t) (m := 0) (.refl t) hempty) (fun _ s' h' => ?_) fun _ he => he⟩
      rwa [h'.2]
    · obtain ⟨d, hd, hne⟩ : ∃ d, t.resolve p.cwd target = .ok d ∧ t.names d ≠ [] := by simpa using hempty
      obtain ⟨n, hn⟩ := List.exists_mem_of_ne_nil _ hne
      have hsome : (t.kind (d ++ [])).isSome := by
        rw [List.append_nil, dir_of_child (mem_names.mp hn)]
        rfl
      obtain ⟨D, hD⟩ := t.exists_depth
      have hrun := descend_wp (s := ⟨t, answers, [], []⟩) (m := D + 2) hcuts hd hD (.refl t) hsome (.inl rfl)
        (Nat.le_add_right _ _) hnoCalls
      have hnil : spell target [] = target := List.append_nil target
      rw [hnil] at hrun
      exact ⟨D + 2, wp_mono hrun (fun _ s' h' => h'.2) fun _ he => he⟩

/-- The directory "ab", by a path of 2046 bytes: 1022 times "./", and "ab". -/
def endlessTarget : Path := (List.replicate 1022 [46, 47]).flatten ++ [97, 98]

/-- `custom_rm -r` of "ab" does not return: the path of its entry is cut to the path of the directory with a slash, which is then
called with
itself. -/
theorem rm_endless :
    strayTree.resolve [] endlessTarget = .ok [[97, 98]] ∧ strayTree.names [[97, 98]] = [[120]] ∧
      strayTree.resolve [] (child endlessTarget [120]) = .ok [[97, 98]] ∧
      ∀ depth, ∃ s', removeRecursive ⟨[], fun _ => []⟩ depth endlessTarget ⟨strayTree, fun _ _ => none, [], []⟩ = .error s' := by
  have hd : strayTree.resolve [] endlessTarget = .ok [[97, 98]] := by decide +kernel
  have hl : strayTree.resolve [] (child endlessTarget [120]) = .ok [[97, 98]] := by decide +kernel
  refine ⟨hd, by decide, hl, fun depth => ?_⟩
  have hs : Willing ⟨strayTree, fun _ _ => none, [], []⟩ := fun _ _ => rfl
  obtain ⟨s', hrun, -⟩ := exists_error_of_wp
    (endless_of_first (p := ⟨[], fun _ => []⟩) (n := [120]) hs hd (by decide) (by decide +kernel) hl (by decide) depth)
  exact ⟨s', hrun⟩

end OsLab.Rm
