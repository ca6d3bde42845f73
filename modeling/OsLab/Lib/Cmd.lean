import Mathlib.Logic.Function.Basic

/-!
# Commands that may stop the machine

A command reads and writes a state, and either returns a value or stops with an error that says why. `wp x Q E s` says what
a run of `x` from `s` comes to: it returns, with a value and a state that meet `Q`, or it stops, with an error that meets
`E`. With `E` false it says that the command returns.

The rules give the condition of a compound command in terms of its parts (`wp_pure`, `wp_bind`, `wp_ite` and their kin), so
that the specification of a function is used where it is called and nothing is unfolded twice. A loop is given a bound on its
turns; `wp_loop` is the rule of its invariant, and `wp_loop_lt` the one with a variant, from which the bound suffices.

`Same R x y s` compares two commands: from `s` they come to the same state, with results that `R` relates, or stop in the same way.
-/

namespace OsLab

/-- A command on states `σ` that returns an `α` or stops with an `ε`. -/
abbrev Cmd (ε σ α : Type) := StateT σ (Except ε) α

namespace Cmd

variable {ε σ τ α β : Type} {a : α} {s' : σ} {n : Nat}

/-- A run from `s` returns what meets `Q` or stops with what meets `E`. -/
def wp (x : Cmd ε σ α) (Q : α → σ → Prop) (E : ε → Prop) (s : σ) : Prop :=
  match x s with
  | .ok (a, s') => Q a s'
  | .error e => E e

variable {x : Cmd ε σ α} {f : α → Cmd ε σ β} {Q Q' : α → σ → Prop} {R : β → σ → Prop} {E E' : ε → Prop} {s : σ}

@[simp] theorem wp_pure (a : α) : wp (pure a : Cmd ε σ α) Q E s ↔ Q a s := Iff.rfl

@[simp] theorem wp_bind : wp (x >>= f) R E s ↔ wp x (fun a => wp (f a) R E) E s := by
  unfold wp
  simp only [bind, StateT.bind, Except.bind]
  cases h : x s with
  | error e | ok r => rfl

@[simp] theorem wp_get {Q : σ → σ → Prop} : wp (get : Cmd ε σ σ) Q E s ↔ Q s s := Iff.rfl

@[simp] theorem wp_set (s' : σ) {Q : PUnit → σ → Prop} : wp (set s' : Cmd ε σ PUnit) Q E s ↔ Q ⟨⟩ s' := Iff.rfl

@[simp] theorem wp_modify (g : σ → σ) {Q : PUnit → σ → Prop} : wp (modify g : Cmd ε σ PUnit) Q E s ↔ Q ⟨⟩ (g s) :=
  Iff.rfl

@[simp] theorem wp_throw (e : ε) : wp (throw e : Cmd ε σ α) Q E s ↔ E e := Iff.rfl

@[simp] theorem wp_ite (c : Prop) [Decidable c] {y : Cmd ε σ α} :
    wp (if c then x else y) Q E s ↔ (c → wp x Q E s) ∧ (¬ c → wp y Q E s) := by
  by_cases h : c <;> simp [h]

/-- A condition on a run can be evaluated. -/
instance [∀ a s, Decidable (Q a s)] [∀ e, Decidable (E e)] : Decidable (wp x Q E s) :=
  show Decidable (match x s with | .ok (a, s') => Q a s' | .error e => E e) from
  match x s with
  | .ok (a, s') => inferInstanceAs (Decidable (Q a s'))
  | .error e => inferInstanceAs (Decidable (E e))

/-- The rule of consequence. -/
theorem wp_mono (h : wp x Q E s) (hQ : ∀ a s', Q a s' → Q' a s') (hE : ∀ e, E e → E' e) : wp x Q' E' s := by
  unfold wp at h ⊢
  cases hx : x s with
  | error e =>
    simp only [hx] at h ⊢
    exact hE e h
  | ok r =>
    simp only [hx] at h ⊢
    exact hQ _ _ h

/-- Two specifications of one command, each with a condition on the errors. -/
theorem wp_inter (h : wp x Q E s) (h' : wp x Q' E' s) : wp x (fun a s => Q a s ∧ Q' a s) (fun e => E e ∧ E' e) s := by
  unfold wp at h h' ⊢
  cases hx : x s with
  | error e | ok r =>
    simp only [hx] at h h' ⊢
    exact ⟨h, h'⟩

/-- Two specifications of one command. -/
theorem wp_and (h : wp x Q E s) (h' : wp x Q' E s) : wp x (fun a s => Q a s ∧ Q' a s) E s :=
  wp_mono (wp_inter h h') (fun _ _ hq => hq) fun _ he => he.1

/-- A run comes to a value or to an error. -/
theorem exists_or_of_wp (h : wp x Q E s) : (∃ a s', Q a s') ∨ ∃ e, E e := by
  unfold wp at h
  split at h
  · exact .inl ⟨_, _, h⟩
  · exact .inr ⟨_, h⟩

/-- A run comes to something. -/
theorem wp_trivial : wp x (fun _ _ => True) (fun _ => True) s := by
  unfold wp
  cases x s <;> trivial

/-- Two conditions that come to the same where a run may end. -/
theorem wp_congr {P : α → σ → Prop} (h : wp x P (fun _ => True) s) (hQ : ∀ a s', P a s' → (Q a s' ↔ Q' a s')) :
    wp x Q E s ↔ wp x Q' E s := by
  unfold wp at h ⊢
  cases hx : x s with
  | error e => exact Iff.rfl
  | ok r =>
    simp only [hx] at h
    exact hQ _ _ h

/-- A command whose conditions are those of another, with the result changed by `g`, is that other command with the result changed. -/
theorem eq_map_of_wp {y : Cmd ε σ α} {g : α × σ → α × σ}
    (h : ∀ (Q : α → σ → Prop) (E : ε → Prop), wp x Q E s ↔ wp y (fun a s' => Q (g (a, s')).1 (g (a, s')).2) E s) :
    x s = (y s).map g := by
  cases hy : y s with
  | error e =>
    have hx := (h (fun _ _ => False) (· = e)).mpr (by unfold wp; rw [hy])
    unfold wp at hx
    cases hxs : x s with
    | error e' =>
      rw [hxs] at hx
      exact congrArg _ hx
    | ok r =>
      rw [hxs] at hx
      exact hx.elim
  | ok r =>
    have hx := (h (fun a s' => (a, s') = g r) fun _ => False).mpr (by unfold wp; rw [hy])
    unfold wp at hx
    cases hxs : x s with
    | error e' =>
      rw [hxs] at hx
      exact hx.elim
    | ok r' =>
      rw [hxs] at hx
      exact congrArg _ hx

/-- A call, and what follows it: the specification of the call is used by name. -/
theorem wp_call (h : wp x Q E s) (hR : ∀ a s', Q a s' → wp (f a) R E s') : wp (x >>= f) R E s :=
  wp_bind.mpr (wp_mono h hR fun _ he => he)

/-- A call that always returns. -/
theorem wp_call_of_returns (h : wp x Q (fun _ => False) s) (hR : ∀ a s', Q a s' → wp (f a) R E s') : wp (x >>= f) R E s :=
  wp_bind.mpr (wp_mono h hR fun _ he => he.elim)

/-- A call that depends on a condition, with what follows it written after each branch. -/
theorem wp_ite_call {c : Prop} [Decidable c] {y : Cmd ε σ α} (h : wp (if c then x else y) Q E s)
    (hR : ∀ a s', Q a s' → wp (f a) R E s') : wp (if c then x >>= f else y >>= f) R E s := by
  by_cases hc : c
  · rw [if_pos hc] at h ⊢
    exact wp_call h hR
  · rw [if_neg hc] at h ⊢
    exact wp_call h hR

/-- The rule of consequence, with the run at hand. -/
theorem wp_run (h : wp x Q E s) (hQ : ∀ a s', x s = .ok (a, s') → Q a s' → Q' a s') : wp x Q' E s := by
  unfold wp at h ⊢
  cases hx : x s with
  | error e => simpa only [hx] using h
  | ok r =>
    simp only [hx] at h ⊢
    exact hQ _ _ hx h

/-- A command run on a part of the state, with the rest left as it is. -/
def zoom (part : τ → σ) (put : τ → σ → τ) (x : Cmd ε σ α) : Cmd ε τ α := fun t =>
  match x (part t) with
  | .ok (a, s) => .ok (a, put t s)
  | .error e => .error e

@[simp] theorem wp_zoom {part : τ → σ} {put : τ → σ → τ} {Q : α → τ → Prop} {t : τ} :
    wp (zoom part put x) Q E t ↔ wp x (fun a s => Q a (put t s)) E (part t) := by
  unfold wp zoom
  cases x (part t) <;> rfl

/-- Only the run counts. -/
theorem wp_of_run {y : Cmd ε σ α} {t : σ} (h : x s = y t) : wp x Q E s ↔ wp y Q E t := by
  unfold wp
  rw [h]

/-- The condition of a run that is known to return. -/
theorem wp_of_ok (hx : x s = .ok (a, s')) : wp x Q E s ↔ Q a s' := by
  unfold wp
  rw [hx]

/-- What a run that has returned says of its result. -/
theorem wp_ok (h : wp x Q E s) (hx : x s = .ok (a, s')) : Q a s' := by
  unfold wp at h
  simpa only [hx] using h

/-- What a run that has stopped says of its error. -/
theorem wp_error {e : ε} (h : wp x Q E s) (hx : x s = .error e) : E e := by
  unfold wp at h
  simpa only [hx] using h

/-- A command that cannot return stops. -/
theorem exists_error_of_wp (h : wp x (fun _ _ => False) E s) : ∃ e, x s = .error e ∧ E e := by
  unfold wp at h
  cases hx : x s with
  | error e =>
    simp only [hx] at h
    exact ⟨e, rfl, h⟩
  | ok r => simp only [hx] at h

/-- A command that cannot stop returns. -/
theorem exists_of_wp (h : wp x Q (fun _ => False) s) : ∃ a s', x s = .ok (a, s') ∧ Q a s' := by
  unfold wp at h
  cases hx : x s with
  | error e =>
    simp only [hx] at h
  | ok r =>
    simp only [hx] at h
    exact ⟨r.1, r.2, rfl, h⟩

/-! ## Loops -/

/-- What one turn of a loop comes to. -/
inductive Turn (β ρ : Type) where
  | again (b : β)
  | done (r : ρ)

/-- The loop goes on in a state that meets `I`, or is over in one that meets `Q`. -/
def Turn.Meets {ρ : Type} (I : β → σ → Prop) (Q : ρ → σ → Prop) : Turn β ρ → σ → Prop
  | .again b, s => I b s
  | .done r, s => Q r s

/-- A loop of at most so many turns: with no end by then, the command stops with `out`. -/
def loop {ρ : Type} (out : ε) (body : β → Cmd ε σ (Turn β ρ)) : Nat → β → Cmd ε σ ρ
  | 0, _ => throw out
  | n + 1, b => do
    match ← body b with
    | .again b => loop out body n b
    | .done r => pure r

section

variable {ρ : Type} {out : ε} {body : β → Cmd ε σ (Turn β ρ)} {Q : ρ → σ → Prop} {b : β}

theorem wp_loop_succ : wp (loop out body (n + 1) b) Q E s ↔ wp (body b) (Turn.Meets (fun b => wp (loop out body n b) Q E) Q) E s := by
  rw [loop, wp_bind]
  refine iff_of_eq (congrArg (fun R => wp (body b) R E s) ?_)
  funext t s'
  cases t <;> rfl

/-- The rule of the invariant. -/
theorem wp_loop {I : β → σ → Prop} (hbody : ∀ b s, I b s → wp (body b) (Turn.Meets I Q) E s) (hout : E out) (n : Nat)
    (h : I b s) : wp (loop out body n b) Q E s := by
  induction n generalizing b s with
  | zero => exact hout
  | succ n ih =>
    rw [wp_loop_succ]
    refine wp_mono (hbody b s h) (fun t s' ht => ?_) fun _ he => he
    cases t with
    | again b => exact ih ht
    | done r => exact ht

/-- The rule of the invariant and the variant: each turn lowers `m`, so the turns suffice. -/
theorem wp_loop_lt {I : β → σ → Prop} (m : β → σ → Nat)
    (hbody : ∀ b s, I b s → wp (body b) (Turn.Meets (fun b' s' => I b' s' ∧ m b' s' < m b s) Q) E s) (hn : m b s < n) (h : I b s) :
    wp (loop out body n b) Q E s := by
  induction n generalizing b s with
  | zero => exact absurd hn (Nat.not_lt_zero _)
  | succ n ih =>
    rw [wp_loop_succ]
    refine wp_mono (hbody b s h) (fun t s' ht => ?_) fun _ he => he
    cases t with
    | again b' => exact ih (by have := ht.2; omega) ht.1
    | done r => exact ht

theorem loop_again {b' : β} (h : body b = pure (.again b')) : loop out body (n + 1) b = loop out body n b' := by
  rw [loop, h, pure_bind]

theorem loop_done {r : ρ} (h : body b = pure (.done r)) : loop out body (n + 1) b = pure r := by
  rw [loop, h, pure_bind]

end

/-! ## Commands that do the same -/

/-- The two commands return what `R` relates, in the same state, or stop with the same error. -/
def Same {α β : Type} (R : α → β → Prop) (x : Cmd ε σ α) (y : Cmd ε σ β) (s : σ) : Prop :=
  (∃ a b s', x s = .ok (a, s') ∧ y s = .ok (b, s') ∧ R a b) ∨ ∃ e, x s = .error e ∧ y s = .error e

section

variable {α' β' : Type} {R : α → β → Prop} {R' : α' → β' → Prop} {y : Cmd ε σ β} {f : α → Cmd ε σ α'} {g : β → Cmd ε σ β'}

theorem bind_of_ok (h : x s = .ok (a, s')) : (x >>= f) s = f a s' := by
  simp only [bind, StateT.bind, Except.bind, h]

theorem bind_of_error {e : ε} (h : x s = .error e) : (x >>= f) s = .error e := by
  simp only [bind, StateT.bind, Except.bind, h]

theorem same_pure {b : β} (h : R a b) : Same R (pure a : Cmd ε σ α) (pure b) s := .inl ⟨a, b, s, rfl, rfl, h⟩

theorem same_refl (x : Cmd ε σ α) (s : σ) : Same Eq x x s := by
  cases h : x s with
  | error e => exact .inr ⟨e, h, h⟩
  | ok r => exact .inl ⟨r.1, r.1, r.2, h, h, rfl⟩

theorem same_bind (h : Same R x y s) (hf : ∀ a b s', R a b → Same R' (f a) (g b) s') : Same R' (x >>= f) (y >>= g) s := by
  rcases h with ⟨a, b, s', hx, hy, hab⟩ | ⟨e, hx, hy⟩
  · unfold Same
    rw [bind_of_ok hx, bind_of_ok hy]
    exact hf a b s' hab
  · exact .inr ⟨e, bind_of_error hx, bind_of_error hy⟩

/-- Two commands that begin alike. -/
theorem same_bind_of_eq {x' : Cmd ε σ α} {g : α → Cmd ε σ β'} (hx : x s = x' s)
    (h : ∀ a s', x' s = .ok (a, s') → Same R' (f a) (g a) s') : Same R' (x >>= f) (x' >>= g) s := by
  cases hx' : x' s with
  | error e => exact .inr ⟨e, bind_of_error (hx.trans hx'), bind_of_error hx'⟩
  | ok r =>
    unfold Same
    rw [bind_of_ok (hx.trans hx'), bind_of_ok hx']
    exact h r.1 r.2 hx'

theorem Same.mono {R' : α → β → Prop} (h : Same R x y s) (hR : ∀ a b, R a b → R' a b) : Same R' x y s := by
  rcases h with ⟨a, b, s', hx, hy, hab⟩ | herr
  · exact .inl ⟨a, b, s', hx, hy, hR a b hab⟩
  · exact .inr herr

theorem Same.trans {γ : Type} {z : Cmd ε σ γ} {S : β → γ → Prop} (h : Same R x y s) (h' : Same S y z s) :
    Same (fun a c => ∃ b, R a b ∧ S b c) x z s := by
  rcases h with ⟨a, b, s', hx, hy, hab⟩ | ⟨e, hx, hy⟩
  · rcases h' with ⟨b', c, s'', hy', hz, hbc⟩ | ⟨e', hy', -⟩
    · cases hy.symm.trans hy'
      exact .inl ⟨a, c, s', hx, hz, b, hab, hbc⟩
    · cases hy.symm.trans hy'
  · rcases h' with ⟨b', c, s'', hy', -, -⟩ | ⟨e', hy', hz⟩
    · cases hy.symm.trans hy'
    · cases hy.symm.trans hy'
      exact .inr ⟨e, hx, hz⟩

end

end Cmd

end OsLab
