import Mathlib.Algebra.Ring.Nat
import Mathlib.Data.List.Basic
import Mathlib.Logic.Function.Basic

/-!
# Systems, runs and invariants

A system takes labelled steps: `step s a` is the state after the step `a` from `s`, or `none` when the step cannot be
taken there. A label names everything about the step that the state does not fix (who takes it, with which arguments,
and what the environment answers), so a run is a list of labels and any order of steps is some run.

`Reach ok` is the set of states reached by the runs whose every step meets the condition `ok` in the state it is taken
from; `Reachable` puts no condition. `Reach.invariant` is the one induction over runs that the developments below use.
-/

namespace OsLab

-- Runs of a few parties are written with the numerals of these finite types.
instance instNeZeroOne : NeZero (1 : Nat) := ⟨by decide⟩

instance instNeZeroTwo : NeZero (2 : Nat) := ⟨by decide⟩

instance instNeZeroFour : NeZero (4 : Nat) := ⟨by decide⟩

/-- A step that is taken only where a condition holds. -/
theorem of_guard {α : Type*} {c : Prop} [Decidable c] {a b : α} (h : (if c then some a else none) = some b) : c ∧ a = b :=
  (Option.ite_none_right_eq_some.mp h).imp_right Option.some.inj

/-- A system of states `σ` that takes steps labelled by `α`. -/
structure Sys (σ α : Type*) where
  init : σ → Prop
  step : σ → α → Option σ

namespace Sys

variable {σ α : Type*} (S : Sys σ α) {ok : σ → α → Prop} {s s' : σ} {as : List α}

/-- The states reached by the runs whose every step meets `ok` in the state before it. -/
inductive Reach (ok : σ → α → Prop) : σ → Prop where
  | init {s : σ} : S.init s → Reach ok s
  | step {s s' : σ} (a : α) : Reach ok s → ok s a → S.step s a = some s' → Reach ok s'

/-- The states reached by any run. -/
def Reachable : σ → Prop := S.Reach fun _ _ => True

/-- The state after a list of steps, when every one of them can be taken. -/
def run (s : σ) : List α → Option σ
  | [] => some s
  | a :: as => (S.step s a).bind fun s' => run s' as

/-- The state after a list of steps, when every one of them can be taken and meets the condition where it is taken. -/
def runOk (ok : σ → α → Prop) [∀ s a, Decidable (ok s a)] (s : σ) : List α → Option σ
  | [] => some s
  | a :: as => if ok s a then (S.step s a).bind fun s' => runOk ok s' as else none

/-- Every step of a run meets the condition in the state it is taken from. -/
def along (ok : σ → α → Prop) (s : σ) : List α → Prop
  | [] => True
  | a :: as => ok s a ∧ ∀ s', S.step s a = some s' → along ok s' as

/-- The system with something noted beside its state, which hinders no step. -/
def noting {γ : Type*} (start : σ → γ → Prop) (note : σ → γ → α → γ) : Sys (σ × γ) α where
  init x := S.init x.1 ∧ start x.1 x.2
  step x a := (S.step x.1 a).map fun s => (s, note x.1 x.2 a)

/-- The same steps, from one state. -/
def after (s : σ) : Sys σ α := { S with init := fun t => t = s }

variable {S}

/-- What holds initially and is kept by every step that meets the condition holds of every state reached. -/
theorem Reach.invariant {I : σ → Prop} (h0 : ∀ s, S.init s → I s) (hs : ∀ s a s', I s → ok s a → S.step s a = some s' → I s')
    (h : S.Reach ok s) : I s := by
  induction h with
  | init hi => exact h0 _ hi
  | step a _ hok hst ih => exact hs _ a _ ih hok hst

/-- An invariant may lean on one proved before: the state a step is taken from is itself reached. -/
theorem Reach.invariant_of {J I : σ → Prop} (hJ : ∀ s, S.Reach ok s → J s) (h0 : ∀ s, S.init s → I s)
    (hs : ∀ s a s', J s → I s → ok s a → S.step s a = some s' → I s') (h : S.Reach ok s) : I s := by
  induction h with
  | init hi => exact h0 _ hi
  | step a hr hok hst ih => exact hs _ a _ (hJ _ hr) ih hok hst

/-- A weaker condition reaches more. -/
theorem Reach.mono {ok' : σ → α → Prop} (hle : ∀ s a, ok s a → ok' s a) (h : S.Reach ok s) : S.Reach ok' s := by
  induction h with
  | init hi => exact .init hi
  | step a _ hok hst ih => exact .step a ih (hle _ _ hok) hst

/-- A list of steps whose labels meet the condition, taken from a state reached, ends in a state reached. -/
theorem Reach.run (h : S.Reach ok s) (hok : ∀ a ∈ as, ∀ t, ok t a) (hr : S.run s as = some s') : S.Reach ok s' := by
  induction as generalizing s with
  | nil =>
    cases hr
    exact h
  | cons a as ih =>
    obtain ⟨t, ht, hr⟩ := Option.bind_eq_some_iff.mp hr
    exact ih (Reach.step a h (hok a List.mem_cons_self s) ht) (fun b hb => hok b (List.mem_cons_of_mem a hb)) hr

/-- A list of steps that meet the condition where they are taken, from a state reached, ends in a state reached. -/
theorem Reach.runOk [∀ s a, Decidable (ok s a)] (h : S.Reach ok s) (hr : S.runOk ok s as = some s') : S.Reach ok s' := by
  induction as generalizing s with
  | nil =>
    cases hr
    exact h
  | cons a as ih =>
    simp only [Sys.runOk, Option.ite_none_right_eq_some] at hr
    obtain ⟨hok, hr⟩ := hr
    obtain ⟨t, ht, hr⟩ := Option.bind_eq_some_iff.mp hr
    exact ih (Reach.step a h hok ht) hr

/-- What the steps of a run meet, when it is settled where the first one goes. -/
theorem along_cons {t : σ} {a : α} (hst : S.step s a = some t) : S.along ok s (a :: as) ↔ ok s a ∧ S.along ok t as := by
  refine and_congr_right fun _ => ⟨fun h => h t hst, fun h u hu => ?_⟩
  exact Option.some.inj (hst.symm.trans hu) ▸ h

/-- A run whose steps have been checked as it went meets the condition. -/
theorem along_of_runOk [∀ s a, Decidable (ok s a)] (hr : S.runOk ok s as = some s') : S.along ok s as := by
  induction as generalizing s with
  | nil => trivial
  | cons a as ih =>
    simp only [Sys.runOk, Option.ite_none_right_eq_some] at hr
    obtain ⟨hok, hr⟩ := hr
    obtain ⟨t, ht, hr⟩ := Option.bind_eq_some_iff.mp hr
    refine ⟨hok, fun u hu => ?_⟩
    rw [ht] at hu
    exact Option.some.inj hu ▸ ih hr

/-- What is reached from a state reached is reached. -/
theorem Reach.after (h : S.Reach ok s) (h' : (S.after s).Reach ok s') : S.Reach ok s' := by
  induction h' with
  | init hi => exact hi ▸ h
  | step a _ hok hst ih => exact .step a ih hok hst

/-- A run from an initial state ends in a reachable state. -/
theorem reachable_of_run (hi : S.init s) (hr : S.run s as = some s') : S.Reachable s' :=
  Reach.run (Reach.init hi) (fun _ _ _ => trivial) hr

/-- Simulation: when `f` takes initial states to initial states of `T`, and every step that meets the condition to a step
of `T` that meets its own or to no change, it takes every state reached to a state reached in `T`. The steps may lean on an
invariant. -/
theorem Reach.simulate {τ β : Type*} {T : Sys τ β} {okT : τ → β → Prop} {J : σ → Prop} {f : σ → τ} (hJ : ∀ s, S.Reach ok s → J s)
    (h0 : ∀ s, S.init s → T.init (f s))
    (hs : ∀ s a s', J s → ok s a → S.step s a = some s' → f s' = f s ∨ ∃ b, okT (f s) b ∧ T.step (f s) b = some (f s'))
    (h : S.Reach ok s) : T.Reach okT (f s) := by
  induction h with
  | init hi => exact .init (h0 _ hi)
  | step a hr hok hst ih =>
    rcases hs _ a _ (hJ _ hr) hok hst with heq | ⟨b, hb, hst⟩
    · exact heq ▸ ih
    · exact .step b ih hb hst

/-- What is noted may be forgotten. -/
theorem Reach.of_noting {γ : Type*} {start : σ → γ → Prop} {note : σ → γ → α → γ} {okN : σ × γ → α → Prop}
    (hok : ∀ x a, okN x a → ok x.1 a) {x : σ × γ} (h : (S.noting start note).Reach okN x) : S.Reach ok x.1 := by
  induction h with
  | init hi => exact .init hi.1
  | step a _ hx hst ih =>
    obtain ⟨s', hs, rfl⟩ := Option.map_eq_some_iff.mp hst
    exact .step a ih (hok _ _ hx) hs

end Sys

end OsLab
