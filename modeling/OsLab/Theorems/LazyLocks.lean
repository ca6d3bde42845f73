import OsLab.LazyLocks

/-!
# The locks that are initialised on first use exclude

They do when no CPU tests the flag while another is between its own test and the setting of the flag (`InitAlone`). Otherwise
both find it unset, and the second `initlock` opens a lock that the first CPU already holds.
-/

namespace OsLab

open Function (update update_self update_of_ne)

namespace LazyAux

variable {C : Type*}

/-- The table that a CPU is in a call over. -/
def LazyPc.table : LazyPc → Option LazyTable
  | .outside => none
  | .initing l => some l
  | .marking l => some l
  | .acquiring l => some l
  | .inside l => some l

/-- The CPU has found the flag of `l` unset and has not set it yet. -/
def Initing (s : LazySt C) (l : LazyTable) (c : C) : Prop := s.pc c = .initing l ∨ s.pc c = .marking l

/-- What holds of the lock `l`: before the flag is set no CPU is past the initialisation, and at most one is in it; the CPU
inside is the one that the lock records. -/
structure LazyInv (s : LazySt C) (l : LazyTable) : Prop where
  one : ∀ c c', Initing s l c → Initing s l c' → c = c'
  unset : ∀ c, Initing s l c → s.inited l = false
  past : ∀ c, s.pc c = .acquiring l ∨ s.pc c = .inside l → s.inited l = true
  inside : ∀ c, s.pc c = .inside l → s.lock l = ⟨true, some c⟩
  held : (s.lock l).locked = true → ∃ c, s.pc c = .inside l

theorem LazyInv.boot (l : LazyTable) : LazyInv (.boot : LazySt C) l := by
  constructor
  all_goals simp [LazySt.boot, Initing, Spinlock.initlock]

section

variable [DecidableEq C] {s s' : LazySt C} {l : LazyTable} {c : C} {x : LazyPc}

/-- A step in a call over another table. -/
theorem LazyInv.frame (h : LazyInv s l) (hpc : s'.pc = update s.pc c x) (hold : LazyPc.table (s.pc c) ≠ some l)
    (hx : LazyPc.table x ≠ some l) (hin : s'.inited l = s.inited l) (hlock : s'.lock l = s.lock l) : LazyInv s' l := by
  have hsame : ∀ y, LazyPc.table y = some l → ∀ c', s'.pc c' = y ↔ s.pc c' = y := by
    intro y hy c'
    rw [hpc]
    by_cases hc : c' = c
    · subst hc
      rw [update_self]
      exact ⟨fun he => absurd (he ▸ hy) hx, fun he => absurd (he ▸ hy) hold⟩
    · rw [update_of_ne hc]
  have hiniting : ∀ c', Initing s' l c' ↔ Initing s l c' := fun c' => or_congr (hsame _ rfl c') (hsame _ rfl c')
  constructor
  · intro c₁ c₂ h₁ h₂
    exact h.one c₁ c₂ ((hiniting c₁).mp h₁) ((hiniting c₂).mp h₂)
  · intro c₁ h₁
    rw [hin]
    exact h.unset c₁ ((hiniting c₁).mp h₁)
  · intro c₁ h₁
    rw [hin]
    exact h.past c₁ (h₁.imp (hsame _ rfl c₁).mp (hsame _ rfl c₁).mp)
  · intro c₁ h₁
    rw [hlock]
    exact h.inside c₁ ((hsame _ rfl c₁).mp h₁)
  · intro hl
    obtain ⟨c₁, h₁⟩ := h.held (hlock ▸ hl)
    exact ⟨c₁, (hsame _ rfl c₁).mpr h₁⟩

/-- A step in a call over the table: only the CPU that takes it has to be looked at, and that the others are not in its way. -/
theorem LazyInv.move (h : LazyInv s l) (hpc : s'.pc = update s.pc c x)
    (hone : x = .initing l ∨ x = .marking l → s'.inited l = false ∧ ∀ c', Initing s l c' → c' = c)
    (hpast : x = .acquiring l ∨ x = .inside l → s'.inited l = true)
    (hin : s'.inited l = s.inited l ∨ s'.inited l = true ∧ ∀ c', Initing s l c' → c' = c)
    (hlock : ∀ c', c' ≠ c → s.pc c' = .inside l → s'.lock l = s.lock l) (hinside : x = .inside l → s'.lock l = ⟨true, some c⟩)
    (hheld : (s'.lock l).locked = true → x = .inside l ∨ ∃ c', c' ≠ c ∧ s.pc c' = .inside l) : LazyInv s' l := by
  have hself : s'.pc c = x := by rw [hpc, update_self]
  have hother : ∀ c', c' ≠ c → s'.pc c' = s.pc c' := fun c' hc => by rw [hpc, update_of_ne hc]
  have hiniting : ∀ c', c' ≠ c → Initing s' l c' → Initing s l c' := fun c' hc hi => by
    unfold Initing at hi
    rwa [hother c' hc] at hi
  have hmine : Initing s' l c → x = .initing l ∨ x = .marking l := fun hi => by
    unfold Initing at hi
    rwa [hself] at hi
  constructor
  · intro c₁ c₂ h₁ h₂
    by_cases hc₁ : c₁ = c
    · subst hc₁
      by_contra hne
      exact hne ((hone (hmine h₁)).2 c₂ (hiniting c₂ (Ne.symm hne) h₂)).symm
    · by_cases hc₂ : c₂ = c
      · subst hc₂
        exact (hone (hmine h₂)).2 c₁ (hiniting c₁ hc₁ h₁)
      · exact h.one c₁ c₂ (hiniting c₁ hc₁ h₁) (hiniting c₂ hc₂ h₂)
  · intro c₁ h₁
    by_cases hc₁ : c₁ = c
    · subst hc₁
      exact (hone (hmine h₁)).1
    · rcases hin with hin | ⟨-, hnone⟩
      · rw [hin]
        exact h.unset c₁ (hiniting c₁ hc₁ h₁)
      · exact absurd (hnone c₁ (hiniting c₁ hc₁ h₁)) hc₁
  · intro c₁ h₁
    by_cases hc₁ : c₁ = c
    · subst hc₁
      exact hpast (hself ▸ h₁)
    · rcases hin with hin | ⟨hin, -⟩
      · rw [hin]
        exact h.past c₁ (hother c₁ hc₁ ▸ h₁)
      · exact hin
  · intro c₁ h₁
    by_cases hc₁ : c₁ = c
    · subst hc₁
      exact hinside (hself ▸ h₁)
    · rw [hother c₁ hc₁] at h₁
      rw [hlock c₁ hc₁ h₁]
      exact h.inside c₁ h₁
  · intro hl
    rcases hheld hl with hx | ⟨c₁, hc₁, h₁⟩
    · exact ⟨c, hself.trans hx⟩
    · exact ⟨c₁, (hother c₁ hc₁).trans h₁⟩

omit [DecidableEq C] in
/-- No CPU but the one that holds the lock is inside. -/
theorem LazyInv.unique (h : LazyInv s l) {c' : C} (hc : s.pc c = .inside l) (hc' : s.pc c' = .inside l) : c = c' := by
  have heq := (h.inside c hc).symm.trans (h.inside c' hc')
  exact Option.some.inj (congrArg Spinlock.cpu heq)

end

/-- The machine has not panicked, and both locks are as they should be. -/
structure LazyOk (s : LazySt C) : Prop where
  noPanic : s.panicked = false
  inv : ∀ l, LazyInv s l

section Steps

variable [DecidableEq C] {s s' : LazySt C} {c : C} {l : LazyTable}

/-- The test of a flag, when no CPU is in the middle of the initialisation. -/
theorem LazyOk.testFlag (h : LazyOk s) (hset : s.Settled l) (hst : s.testFlag l c = some s') : LazyOk s' := by
  obtain ⟨hout, rfl⟩ := of_guard hst
  refine ⟨h.noPanic, fun k => ?_⟩
  by_cases hk : k = l
  · subst hk
    have hnone : ∀ c', Initing s k c' → c' = c := fun c' hi => absurd hi (not_or.mpr (hset c'))
    have hin : (s.setPc c (if s.inited k then .acquiring k else .initing k)).inited k = s.inited k := rfl
    refine (h.inv k).move rfl (fun hx => ⟨?_, hnone⟩) (fun hx => ?_) (Or.inl hin) (fun _ _ _ => rfl) ?_ fun hl => ?_
    · rw [hin]
      cases hi : s.inited k with
      | false => rfl
      | true => simp [hi] at hx
    · rw [hin]
      cases hi : s.inited k with
      | false => simp [hi] at hx
      | true => rfl
    · intro hx
      split at hx <;> cases hx
    · obtain ⟨c', hc'⟩ := (h.inv k).held hl
      refine Or.inr ⟨c', ?_, hc'⟩
      rintro rfl
      rw [hout] at hc'
      cases hc'
  · refine (h.inv k).frame rfl (by rw [hout]; exact nofun) ?_ rfl rfl
    split
    · exact fun he => hk (Option.some.inj he).symm
    · exact fun he => hk (Option.some.inj he).symm

/-- `initlock`: no other CPU is past the test. -/
theorem LazyOk.initlock (h : LazyOk s) (hc : s.pc c = .initing l) :
    LazyOk (({ s with lock := update s.lock l .initlock } : LazySt C).setPc c (.marking l)) := by
  refine ⟨h.noPanic, fun k => ?_⟩
  by_cases hk : k = l
  · subst hk
    have hunset := (h.inv k).unset c (Or.inl hc)
    have hnone : ∀ c', s.pc c' ≠ .inside k := fun c' hin => by
      have := (h.inv k).past c' (Or.inr hin)
      rw [hunset] at this
      cases this
    refine (h.inv k).move rfl (fun _ => ⟨hunset, fun c' hi => (h.inv k).one c' c hi (Or.inl hc)⟩) ?_ (Or.inl rfl) ?_ nofun ?_
    · rintro (hx | hx) <;> cases hx
    · exact fun c' _ hin => absurd hin (hnone c')
    · intro hl
      simp [LazySt.setPc, Spinlock.initlock] at hl
  · refine (h.inv k).frame rfl (by rw [hc]; exact fun he => hk (Option.some.inj he).symm)
      (fun he => hk (Option.some.inj he).symm) rfl ?_
    exact update_of_ne hk _ _

/-- The flag is set. -/
theorem LazyOk.setFlag (h : LazyOk s) (hc : s.pc c = .marking l) :
    LazyOk (({ s with inited := update s.inited l true } : LazySt C).setPc c (.acquiring l)) := by
  refine ⟨h.noPanic, fun k => ?_⟩
  by_cases hk : k = l
  · subst hk
    have hin : update s.inited k true k = true := update_self _ _ _
    refine (h.inv k).move rfl ?_ (fun _ => hin) (Or.inr ⟨hin, fun c' hi => (h.inv k).one c' c hi (Or.inr hc)⟩)
      (fun _ _ _ => rfl) nofun fun hl => ?_
    · rintro (hx | hx) <;> cases hx
    · obtain ⟨c', hc'⟩ := (h.inv k).held hl
      refine Or.inr ⟨c', ?_, hc'⟩
      rintro rfl
      rw [hc] at hc'
      cases hc'
  · refine (h.inv k).frame rfl (by rw [hc]; exact fun he => hk (Option.some.inj he).symm)
      (fun he => hk (Option.some.inj he).symm) ?_ rfl
    exact update_of_ne hk _ _

/-- `acquire`: it takes the lock when no CPU is inside, and does not panic. -/
theorem LazyOk.acquire (h : LazyOk s) (hc : s.pc c = .acquiring l) (hst : s.after c l (.inside l) ((s.lock l).acquire c) = some s') :
    LazyOk s' := by
  have hnot : (s.lock l).holding c = false := by
    by_contra hhold
    simp only [Spinlock.holding, Bool.and_eq_true, beq_iff_eq, Bool.not_eq_false] at hhold
    obtain ⟨c', hc'⟩ := (h.inv l).held hhold.1
    rw [(h.inv l).inside c' hc', Option.some.injEq] at hhold
    rw [hhold.2, hc] at hc'
    cases hc'
  simp only [Spinlock.acquire, hnot, Bool.false_eq_true, if_false] at hst
  split at hst
  · cases hst
  · rename_i hfree
    cases hst
    refine ⟨h.noPanic, fun k => ?_⟩
    by_cases hk : k = l
    · subst hk
      refine (h.inv k).move rfl ?_ (fun _ => (h.inv k).past c (Or.inl hc)) (Or.inl rfl) ?_
        (fun _ => update_self _ _ _) fun _ => Or.inl rfl
      · rintro (hx | hx) <;> cases hx
      · intro c' _ hin
        rw [(h.inv k).inside c' hin] at hfree
        exact absurd rfl hfree
    · refine (h.inv k).frame rfl (by rw [hc]; exact fun he => hk (Option.some.inj he).symm)
        (fun he => hk (Option.some.inj he).symm) rfl ?_
      exact update_of_ne hk _ _

/-- `release`: the CPU inside is the one recorded, so it does not panic. -/
theorem LazyOk.release (h : LazyOk s) (hc : s.pc c = .inside l) (hst : s.after c l .outside ((s.lock l).release c) = some s') :
    LazyOk s' := by
  have hhold : (s.lock l).holding c = true := by
    rw [(h.inv l).inside c hc]
    simp [Spinlock.holding]
  simp only [Spinlock.release, hhold, Bool.not_true, Bool.false_eq_true, if_false] at hst
  cases hst
  refine ⟨h.noPanic, fun k => ?_⟩
  by_cases hk : k = l
  · subst hk
    refine (h.inv k).move rfl ?_ ?_ (Or.inl rfl) ?_ nofun fun hl => ?_
    · rintro (hx | hx) <;> cases hx
    · rintro (hx | hx) <;> cases hx
    · exact fun c' hne hin => absurd ((h.inv k).unique hin hc) hne
    · simp [LazySt.setPc] at hl
  · refine (h.inv k).frame rfl (by rw [hc]; exact fun he => hk (Option.some.inj he).symm) nofun rfl ?_
    exact update_of_ne hk _ _

theorem LazyOk.step {a : LazyAct C} (h : LazyOk s) (hok : InitAlone s a) (hst : lazySys.step s a = some s') : LazyOk s' := by
  simp only [lazySys, h.noPanic, Bool.false_eq_true, if_false] at hst
  cases a with
  | mutexTableInit c | queueTableInitialize c => exact h.testFlag hok hst
  | initlock c =>
    simp only [lazyMove] at hst
    split at hst
    · cases hst
      exact h.initlock ‹_›
    · cases hst
  | setFlag c =>
    simp only [lazyMove] at hst
    split at hst
    · cases hst
      exact h.setFlag ‹_›
    · cases hst
  | acquire c =>
    simp only [lazyMove] at hst
    split at hst
    · exact h.acquire ‹_› hst
    · cases hst
  | release c =>
    simp only [lazyMove] at hst
    split at hst
    · exact h.release ‹_› hst
    · cases hst

end Steps

end LazyAux

open LazyAux

/-- In every state of a run in which no CPU tests a flag while another is in the middle of the initialisation, at most one CPU
is between `acquire` and `release` of each of the two locks, the lock records it, and the machine has not panicked. -/
theorem lazy_locks_exclude {C : Type*} [DecidableEq C] {s : LazySt C} (h : lazySys.Reach InitAlone s) :
    (∀ l c c', s.pc c = .inside l → s.pc c' = .inside l → c = c') ∧
      (∀ l c, s.pc c = .inside l → (s.lock l).holding c = true) ∧ s.panicked = false := by
  have hok : LazyOk s := by
    refine Sys.Reach.invariant (I := LazyOk) ?_ (fun t a t' hI hok hst => hI.step hok hst) h
    rintro t rfl
    exact ⟨rfl, LazyInv.boot⟩
  refine ⟨fun l c c' hc hc' => (hok.inv l).unique hc hc', fun l c hc => ?_, hok.noPanic⟩
  rw [(hok.inv l).inside c hc]
  simp [Spinlock.holding]

/-- The test of the flag of a table. -/
def LazyTable.test {C : Type*} (c : C) : LazyTable → LazyAct C
  | .mutexes => .mutexTableInit c
  | .queues => .queueTableInitialize c

/-- CPU 0 comes first, and CPU 1 after it has set the flag. -/
def firstUse (l : LazyTable) : List (LazyAct (Fin 2)) := [l.test 0, .initlock 0, .setFlag 0, .acquire 0, l.test 1]

/-- The state in which CPU 0 is inside and CPU 1 waits. -/
def firstUseState (l : LazyTable) : LazySt (Fin 2) := (lazySys.runOk InitAlone .boot (firstUse l)).get (by cases l <;> decide)

theorem firstUse_reach (l : LazyTable) : lazySys.Reach InitAlone (firstUseState l) := .runOk (.init rfl) (Option.some_get _).symm

theorem firstUse_inside (l : LazyTable) : (firstUseState l).pc 0 = .inside l ∧ (firstUseState l).pc 1 = .acquiring l := by
  cases l <;> decide

/-- CPU 0 is inside, as the lock says, and CPU 1 waits: for the mutexes and for the queues. -/
theorem lazy_locks_exclude_first :
    ((firstUseState .mutexes).pc 0 = .inside .mutexes ∧ (firstUseState .mutexes).pc 1 = .acquiring .mutexes ∧
      ((firstUseState .mutexes).lock .mutexes).holding 0 = true) ∧
    ((firstUseState .queues).pc 0 = .inside .queues ∧ (firstUseState .queues).pc 1 = .acquiring .queues ∧
      ((firstUseState .queues).lock .queues).holding 0 = true) := by
  have hm := firstUse_inside .mutexes
  have hq := firstUse_inside .queues
  exact ⟨⟨hm.1, hm.2, (lazy_locks_exclude (firstUse_reach .mutexes)).2.1 .mutexes 0 hm.1⟩,
    ⟨hq.1, hq.2, (lazy_locks_exclude (firstUse_reach .queues)).2.1 .queues 0 hq.1⟩⟩

/-- Both CPUs test the flag before either sets it, and CPU 1 calls `initlock` when CPU 0 has the lock. -/
def secondInit (l : LazyTable) : List (LazyAct (Fin 2)) :=
  [l.test 0, l.test 1, .initlock 0, .setFlag 0, .acquire 0, .initlock 1, .setFlag 1, .acquire 1]

/-- The state in which both CPUs are inside. -/
def secondInitState (l : LazyTable) : LazySt (Fin 2) := (lazySys.run .boot (secondInit l)).get (by cases l <;> decide)

theorem secondInit_reach (l : LazyTable) : lazySys.Reachable (secondInitState l) :=
  Sys.reachable_of_run rfl (Option.some_get _).symm

theorem secondInit_inside (l : LazyTable) : (secondInitState l).pc 0 = .inside l ∧ (secondInitState l).pc 1 = .inside l := by
  cases l <;> decide

theorem secondInit_release (l : LazyTable) :
    ∃ s, lazySys.step (secondInitState l) (.release 0) = some s ∧ s.panicked = true := by
  refine ⟨{ secondInitState l with panicked := true }, ?_, rfl⟩
  cases l <;> rfl

/-- Two CPUs are inside at once, and the `release` of the first panics: for the mutexes and for the queues. -/
theorem lazy_locks_both_inside :
    (lazySys.Reachable (secondInitState .mutexes) ∧ (secondInitState .mutexes).pc 0 = .inside .mutexes ∧
      (secondInitState .mutexes).pc 1 = .inside .mutexes ∧
      ∃ s, lazySys.step (secondInitState .mutexes) (.release 0) = some s ∧ s.panicked = true) ∧
    (lazySys.Reachable (secondInitState .queues) ∧ (secondInitState .queues).pc 0 = .inside .queues ∧
      (secondInitState .queues).pc 1 = .inside .queues ∧
      ∃ s, lazySys.step (secondInitState .queues) (.release 0) = some s ∧ s.panicked = true) :=
  ⟨⟨secondInit_reach _, (secondInit_inside _).1, (secondInit_inside _).2, secondInit_release _⟩,
    ⟨secondInit_reach _, (secondInit_inside _).1, (secondInit_inside _).2, secondInit_release _⟩⟩

end OsLab
